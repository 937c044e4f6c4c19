import Mathlib.Data.Sym.Sym2
import Roots.Bytes
import Roots.Lib.Str

/-!
# Roots.Crypto

The third-party cryptography the source calls (`curve25519-dalek`,
`ed25519-dalek`, `sha2`, `crypto_box`) as one interface, next to the crate `hex` in
which keys are printed, and the thin wrappers `src/session.rs` puts around it. The
cryptography carries **no law**: a result that needs one takes the law group it needs
(`BoxRoundtrip`, `SignCrypto`, `PointCrypto`) as a hypothesis, so each theorem shows what
it rests on.
-/

namespace Roots

abbrev Signature := List.Vector UInt8 64

abbrev Nonce := List.Vector UInt8 24

/-- `nonce_for`: sixteen zero bytes and the counter, big-endian. -/
def nonceFor (counter : UInt64) : Nonce :=
  ⟨List.replicate 16 0 ++ toBeBytes counter, by simp⟩

theorem nonceFor_injective : Function.Injective nonceFor := by
  intro a b h
  have hlist := congrArg List.Vector.toList h
  exact toBeBytes_injective (List.append_cancel_left hlist)

/-- The operations of the crates the source uses. -/
class Crypto extends Str.Hex where
  /-- A decompressed point (`curve25519_dalek::edwards::EdwardsPoint`). -/
  Point : Type
  /-- `CompressedEdwardsY::decompress`. -/
  decompress : Key → Option Point
  /-- `EdwardsPoint::to_montgomery().to_bytes()`. -/
  toMontgomery : Point → Key
  /-- `Sha512`. -/
  sha512 : Bytes → List.Vector UInt8 64
  /-- `SigningKey::verifying_key().to_bytes()` of the signing key with this seed. -/
  verifyingKey : Key → Key
  /-- `SigningKey::sign`, for the signing key with this seed. -/
  sign : Key → Bytes → Signature
  /-- Whether `VerifyingKey::from_bytes` accepts the bytes. -/
  validKey : Key → Bool
  /-- `VerifyingKey::verify_strict`. -/
  verifyStrict : Key → Bytes → Signature → Bool
  /-- The precomputed shared secret (`crypto_box::SalsaBox`). -/
  SalsaBox : Type
  /-- `PublicKey::from(&SecretKey)`. -/
  boxPub : Key → Key
  /-- `SalsaBox::new(their_pub, our_priv)`. -/
  newBox : Key → Key → SalsaBox
  /-- `Aead::encrypt`. The crate's implementation has no failing case. -/
  aeadEncrypt : SalsaBox → Nonce → Bytes → Bytes
  /-- `Aead::decrypt`. -/
  aeadDecrypt : SalsaBox → Nonce → Bytes → Option Bytes

export Crypto (SalsaBox boxPub)

section Wrappers

variable [Crypto]

/-- `ed_to_curve_priv`. -/
def edToCurvePriv (seed : Key) : Key :=
  (Crypto.sha512 seed.toList).take keyLen

/-- `ed_to_curve_pub`; `none` is the source's `Error::InvalidLength`. -/
def edToCurvePub (pubkey : Key) : Option Key :=
  (Crypto.decompress pubkey).map Crypto.toMontgomery

/-- `salsa_box`. -/
def salsaBox (theirPub ourPriv : Key) : SalsaBox := Crypto.newBox theirPub ourPriv

/-- `box_seal`. -/
def boxSeal (shared : SalsaBox) (counter : UInt64) (msg : Bytes) : Bytes :=
  Crypto.aeadEncrypt shared (nonceFor counter) msg

/-- `box_open`. -/
def boxOpen (shared : SalsaBox) (counter : UInt64) (sealed : Bytes) : Option Bytes :=
  Crypto.aeadDecrypt shared (nonceFor counter) sealed

/-- A box key pair as `fresh_box` returns it: the public half belongs to the
private one. -/
structure BoxKeys where
  pub : Key
  priv : Key
  pub_eq : pub = boxPub priv

/-- The pair `fresh_box` builds from the secret key it drew. -/
def freshBox (priv : Key) : BoxKeys := ⟨boxPub priv, priv, rfl⟩

/-! ## Laws -/

/-- The unordered pair of public keys a shared secret stands for: Diffie-Hellman
gives both ends of a pair the same secret. -/
def boxPair (theirPub ourPriv : Key) : Sym2 Key := s(theirPub, boxPub ourPriv)

/-- What is sealed opens under the same pair of keys and the same counter, and
sealing adds exactly the 16-byte tag. -/
structure BoxRoundtrip : Prop where
  seal_length : ∀ shared n msg, (boxSeal shared n msg).length = msg.length + 16
  open_seal : ∀ {theirPub ourPriv theirPub' ourPriv'} (n : UInt64) (msg : Bytes),
    boxPair theirPub ourPriv = boxPair theirPub' ourPriv' →
      boxOpen (salsaBox theirPub ourPriv) n (boxSeal (salsaBox theirPub' ourPriv') n msg) =
        some msg

/-- A signature made with a seed verifies under its public key. -/
structure SignCrypto : Prop where
  validKey_verifyingKey : ∀ seed, Crypto.validKey (Crypto.verifyingKey seed) = true
  verify_sign : ∀ seed msg,
    Crypto.verifyStrict (Crypto.verifyingKey seed) msg (Crypto.sign seed msg) = true

/-- `VerifyingKey::from_bytes` decompresses the bytes, so what it accepts is a point. -/
def PointCrypto : Prop := ∀ k, Crypto.validKey k = true → (edToCurvePub k).isSome

end Wrappers

end Roots

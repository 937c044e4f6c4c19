import Roots.Crypto

/-!
# Roots.Crypto.Sample

A concrete `Crypto` instance that satisfies the law groups of `Roots.Crypto`, so that
results stated under those laws can be run.

The shared secret of two box keys is the sum and the product of the numbers they
spell, which do not depend on their order. A sealed message is a 16-byte tag (sum,
product, counter) and the plaintext, and whatever has the right tag opens.

Point decompression fails on `notAPoint`, the encoding of `y = 2`, for which the
curve equation has no solution.
-/

namespace Roots.Sample

/-- The key that spells `n`, for `n` below 256. -/
def smallKey (n : UInt8) : Key := ⟨List.replicate 31 0 ++ [n], rfl⟩

/-- `y = 2` with a clear sign bit: not the encoding of a point of the curve. -/
def notAPoint : Key := ⟨2 :: List.replicate 31 0, rfl⟩

/-- Four bytes of a number, most significant first. -/
def be4 (n : Nat) : Bytes :=
  [UInt8.ofNat (n / 2 ^ 24), UInt8.ofNat (n / 2 ^ 16), UInt8.ofNat (n / 2 ^ 8), UInt8.ofNat n]

def tag (shared : Nat × Nat) (nonce : Nonce) : Bytes :=
  be4 shared.1 ++ be4 shared.2 ++ nonce.toList.drop 16

def openTag (shared : Nat × Nat) (nonce : Nonce) (sealed : Bytes) : Option Bytes :=
  if sealed.take 16 = tag shared nonce then some (sealed.drop 16) else none

/-- A seed is its own signing, verifying and box key, except that no seed has
`notAPoint` for a public key. -/
def seedKey (seed : Key) : Key := if seed = notAPoint then smallKey 0 else seed

@[reducible]
def lenient : Crypto where
  toHex := Str.plainHex
  Point := Key
  decompress k := if k = notAPoint then none else some k
  toMontgomery := id
  sha512 b :=
    match arrayOf keyLen b with
    | some seed => ⟨(seedKey seed).toList ++ List.replicate 32 0, by simp⟩
    | none => List.Vector.replicate 64 0
  verifyingKey := seedKey
  sign _ _ := List.Vector.replicate 64 0
  validKey k := k ≠ notAPoint
  verifyStrict _ _ sig := sig = List.Vector.replicate 64 0
  SalsaBox := Nat × Nat
  boxPub := id
  newBox theirPub ourPriv := (keyNat theirPub + keyNat ourPriv, keyNat theirPub * keyNat ourPriv)
  aeadEncrypt shared nonce msg := tag shared nonce ++ msg
  aeadDecrypt := openTag

theorem tag_length (shared : Nat × Nat) (nonce : Nonce) : (tag shared nonce).length = 16 := by
  simp [tag, be4]

theorem openTag_tag (shared : Nat × Nat) (nonce : Nonce) (shared' : Nat × Nat) (nonce' : Nonce)
    (msg : Bytes) :
    openTag shared nonce (tag shared' nonce' ++ msg) =
      if tag shared' nonce' = tag shared nonce then some msg else none := by
  have htake : (tag shared' nonce' ++ msg).take 16 = tag shared' nonce' := by
    rw [← tag_length shared' nonce', List.take_left]
  have hdrop : (tag shared' nonce' ++ msg).drop 16 = msg := by
    rw [← tag_length shared' nonce', List.drop_left]
  rw [openTag, htake, hdrop]

theorem newBox_congr {p k p' k' : Key} (h : s(p, k) = s(p', k')) :
    (keyNat p + keyNat k, keyNat p * keyNat k) = (keyNat p' + keyNat k', keyNat p' * keyNat k') := by
  rcases Sym2.eq_iff.mp h with ⟨rfl, rfl⟩ | ⟨rfl, rfl⟩
  · rfl
  · rw [Nat.add_comm, Nat.mul_comm]

/-- What was sealed under the same pair opens. -/
theorem boxRoundtrip : @BoxRoundtrip lenient := by
  refine @BoxRoundtrip.mk lenient ?_ ?_
  · intro shared n msg
    exact (List.length_append).trans
      ((congrArg (· + msg.length) (tag_length shared (nonceFor n))).trans (Nat.add_comm _ _))
  · intro theirPub ourPriv theirPub' ourPriv' n msg hpair
    refine (openTag_tag _ (nonceFor n) _ (nonceFor n) msg).trans (if_pos ?_)
    exact congrArg (tag · (nonceFor n)) (newBox_congr hpair).symm

/-- A key that verifies is a point. -/
theorem pointCrypto : @PointCrypto lenient := by
  intro k hk
  have hne : k ≠ notAPoint := of_decide_eq_true hk
  show (Option.map id (if k = notAPoint then none else some k)).isSome = true
  rw [if_neg hne]
  rfl

theorem seedKey_ne_notAPoint (seed : Key) : seedKey seed ≠ notAPoint := by
  unfold seedKey
  split
  · decide
  · assumption

/-- Every signature is the same, and it verifies. -/
theorem signCrypto : @SignCrypto lenient := by
  refine @SignCrypto.mk lenient (fun seed => ?_) fun _ _ => ?_
  · exact decide_eq_true (seedKey_ne_notAPoint seed)
  · exact decide_eq_true rfl

end Roots.Sample

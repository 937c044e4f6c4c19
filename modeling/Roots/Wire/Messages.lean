import Roots.Crypto
import Roots.Wire.Reader

/-!
# Roots.Wire.Messages

The routing messages: `SigReq`, `SigRes` and `Announce` of `src/tree.rs`,
`PathLookup`, `NotifyInfo`, `PathNotify` and `PathBroken` of `src/pathfind.rs`, and
`Traffic` of `src/traffic.rs`, each with the bytes it signs, its encoding and its
decoder. Every decoder only refuses (`Refuses`), and `Traffic::encode`, which sizes its
buffer first and expects the size to be right, always succeeds (`Traffic.encode_eq`).
-/

namespace Roots

open Wire

/-! ## The tree's messages -/

structure SigReq where
  seq : UInt64
  nonce : UInt64
deriving DecidableEq

namespace SigReq

def encode (req : SigReq) : Bytes := uvarint req.seq ++ uvarint req.nonce

/-- `SigReq::decode`; the caller enforces the exact length. -/
def decode (buf : Bytes) : Except Exit (SigReq × Bytes) := do
  let (seq, rest) ← takeUvarint buf
  let (nonce, rest) ← takeUvarint rest
  return ({ seq, nonce }, rest)

def bytesForSig (req : SigReq) (node parent : Key) : Bytes :=
  node.toList ++ parent.toList ++ req.encode

theorem decode_refuses (buf : Bytes) : Refuses (decode buf) :=
  .bind (takeUvarint_refuses _) fun _ => .bind (takeUvarint_refuses _) fun _ => .pure _

end SigReq

/-- A parent's signed answer to a `SigReq`: the port it gives the node. -/
structure SigRes where
  req : SigReq
  port : UInt64
  psig : Signature
deriving DecidableEq

namespace SigRes

/-- What the signature covers: everything but the signature itself. -/
def sigBytes (req : SigReq) (port : UInt64) (node parent : Key) : Bytes :=
  req.bytesForSig node parent ++ uvarint port

/-- `SigRes::bytes_for_sig`. -/
def bytesForSig (res : SigRes) (node parent : Key) : Bytes := sigBytes res.req res.port node parent

def encode (res : SigRes) : Bytes := res.req.encode ++ uvarint res.port ++ res.psig.toList

def decode (buf : Bytes) : Except Exit (SigRes × Bytes) := do
  let (req, rest) ← SigReq.decode buf
  let (port, rest) ← takeUvarint rest
  let (psig, rest) ← takeArray 64 rest
  return ({ req, port, psig }, rest)

theorem decode_refuses (buf : Bytes) : Refuses (decode buf) :=
  .bind (SigReq.decode_refuses _) fun _ => .bind (takeUvarint_refuses _) fun _ =>
    .bind (takeArray_refuses _ _) fun _ => .pure _

variable [Crypto]

/-- `SigRes::seal`: `parent` is the seed of the signing key `parentKey` belongs to. -/
def «seal» (req : SigReq) (port : UInt64) (node parent parentKey : Key) : SigRes where
  req := req
  port := port
  psig := Crypto.sign parent (sigBytes req port node parentKey)

/-- `SigRes::check`. -/
def check (res : SigRes) (node parent : Key) : Bool :=
  Crypto.validKey parent && Crypto.verifyStrict parent (res.bytesForSig node parent) res.psig

end SigRes

structure Announce where
  key : Key
  parent : Key
  res : SigRes
  sig : Signature
deriving DecidableEq

namespace Announce

def encode (ann : Announce) : Bytes :=
  ann.key.toList ++ ann.parent.toList ++ ann.res.encode ++ ann.sig.toList

/-- `Announce::decode_exact`. -/
def decodeExact (buf : Bytes) : Except Exit Announce := do
  let ((key, parent), rest) ← takeKeys buf
  let (res, rest) ← SigRes.decode rest
  let sig ← takeArray 64 rest >>= exact
  return { key, parent, res, sig }

theorem decodeExact_refuses (buf : Bytes) : Refuses (decodeExact buf) :=
  .bind (takeKeys_refuses _) fun _ => .bind (SigRes.decode_refuses _) fun _ =>
    .bind (.bind (takeArray_refuses _ _) fun _ => exact_refuses _) fun _ => .pure _

/-- `Announce::check`: only a root may have port zero, and both the node and its
parent signed. -/
def check [Crypto] (ann : Announce) : Bool :=
  !(ann.res.port == 0 && ann.key != ann.parent) &&
    Crypto.validKey ann.key &&
    Crypto.verifyStrict ann.key (ann.res.bytesForSig ann.key ann.parent) ann.sig &&
    ann.res.check ann.key ann.parent

end Announce

/-! ## The pathfinder's messages -/

structure PathLookup where
  source : Key
  dest : Key
  «from» : List UInt64

namespace PathLookup

def encode (l : PathLookup) : Bytes := l.source.toList ++ l.dest.toList ++ appendPath l.from

/-- `PathLookup::decode_exact`. Despite the name, bytes after the path are ignored. -/
def decodeExact (buf : Bytes) : Except Exit PathLookup := do
  let ((source, dest), rest) ← takeKeys buf
  let (path, _) ← splitPath rest
  return { source, dest, «from» := path }

theorem decodeExact_refuses (buf : Bytes) : Refuses (decodeExact buf) :=
  .bind (takeKeys_refuses _) fun _ => .bind (splitPath_refuses _) fun _ => .pure _

end PathLookup

/-- The signed part of a notify: the coordinates of a node at a time. -/
structure NotifyInfo where
  seq : UInt64
  path : List UInt64
  sig : Signature
deriving DecidableEq

namespace NotifyInfo

/-- What the signature covers. -/
def sigBytes (seq : UInt64) (path : List UInt64) : Bytes := uvarint seq ++ appendPath path

/-- `NotifyInfo::bytes_for_sig`. -/
def bytesForSig (info : NotifyInfo) : Bytes := sigBytes info.seq info.path

def encode (info : NotifyInfo) : Bytes := info.bytesForSig ++ info.sig.toList

def decode (buf : Bytes) : Except Exit (NotifyInfo × Bytes) := do
  let (seq, rest) ← takeUvarint buf
  let (path, rest) ← splitPath rest
  let (sig, rest) ← takeArray 64 rest
  return ({ seq, path, sig }, rest)

theorem decode_refuses (buf : Bytes) : Refuses (decode buf) :=
  .bind (takeUvarint_refuses _) fun _ => .bind (splitPath_refuses _) fun _ =>
    .bind (takeArray_refuses _ _) fun _ => .pure _

variable [Crypto]

/-- `NotifyInfo::sign` on an info without a signature. -/
def signed (seed : Key) (seq : UInt64) (path : List UInt64) : NotifyInfo where
  seq := seq
  path := path
  sig := Crypto.sign seed (sigBytes seq path)

/-- `NotifyInfo::check`. -/
def check (info : NotifyInfo) (source : Key) : Bool :=
  Crypto.validKey source && Crypto.verifyStrict source info.bytesForSig info.sig

end NotifyInfo

structure PathNotify where
  path : List UInt64
  watermark : UInt64
  source : Key
  dest : Key
  info : NotifyInfo

namespace PathNotify

def encode (n : PathNotify) : Bytes :=
  appendPath n.path ++ uvarint n.watermark ++ n.source.toList ++ n.dest.toList ++ n.info.encode

/-- `PathNotify::decode_exact`. -/
def decodeExact (buf : Bytes) : Except Exit PathNotify := do
  let (path, rest) ← splitPath buf
  let (watermark, rest) ← takeUvarint rest
  let ((source, dest), rest) ← takeKeys rest
  let info ← NotifyInfo.decode rest >>= exact
  return { path, watermark, source, dest, info }

theorem decodeExact_refuses (buf : Bytes) : Refuses (decodeExact buf) :=
  .bind (splitPath_refuses _) fun _ => .bind (takeUvarint_refuses _) fun _ =>
    .bind (takeKeys_refuses _) fun _ =>
      .bind (.bind (NotifyInfo.decode_refuses _) fun _ => exact_refuses _) fun _ => .pure _

/-- `PathNotify::check`. -/
def check [Crypto] (n : PathNotify) : Bool := n.info.check n.source

end PathNotify

structure PathBroken where
  path : List UInt64
  watermark : UInt64
  source : Key
  dest : Key

namespace PathBroken

def encode (b : PathBroken) : Bytes :=
  appendPath b.path ++ uvarint b.watermark ++ b.source.toList ++ b.dest.toList

/-- `PathBroken::decode_exact`. -/
def decodeExact (buf : Bytes) : Except Exit PathBroken := do
  let (path, rest) ← splitPath buf
  let (watermark, rest) ← takeUvarint rest
  let (source, dest) ← takeKeys rest >>= exact
  return { path, watermark, source, dest }

theorem decodeExact_refuses (buf : Bytes) : Refuses (decodeExact buf) :=
  .bind (splitPath_refuses _) fun _ => .bind (takeUvarint_refuses _) fun _ =>
    .bind (.bind (takeKeys_refuses _) fun _ => exact_refuses _) fun _ => .pure _

end PathBroken

/-! ## Traffic -/

structure Traffic where
  path : List UInt64
  «from» : List UInt64
  source : Key
  dest : Key
  watermark : UInt64
  payload : Bytes

/-- The loop of `uvarint_len`, with nine rounds of fuel as in `uvarintLoop`. -/
def uvarintLenLoop : Nat → UInt64 → Nat
  | 0, _ => 0
  | fuel + 1, rest => if rest ≠ 0 then 1 + uvarintLenLoop fuel (rest >>> 7) else 0

/-- `uvarint_len`. -/
def uvarintLen (v : UInt64) : Nat := 1 + uvarintLenLoop 9 (v >>> 7)

/-- `path_len`. -/
def pathLen (path : List UInt64) : Nat := (path.map uvarintLen).sum + 1

private theorem ge_iff_shiftRight_ne (v : UInt64) : v ≥ 0x80 ↔ v >>> 7 ≠ 0 := by
  have hshift : (v >>> 7).toNat = v.toNat / 128 := by
    rw [UInt64.toNat_shiftRight]
    simp [Nat.shiftRight_eq_div_pow]
  rw [ge_iff_le, UInt64.le_iff_toNat_le, ne_eq, ← UInt64.toNat_inj, hshift]
  show 128 ≤ v.toNat ↔ ¬ v.toNat / 128 = 0
  omega

theorem uvarintLoop_length : ∀ (fuel : Nat) (v : UInt64),
    (uvarintLoop fuel v).length = 1 + uvarintLenLoop fuel (v >>> 7) := by
  intro fuel
  induction fuel with
  | zero =>
    intro v
    rfl
  | succ fuel ih =>
    intro v
    rw [uvarintLoop, uvarintLenLoop]
    by_cases h : v ≥ 0x80
    · rw [if_pos h, if_pos ((ge_iff_shiftRight_ne v).mp h), List.length_cons, ih]
      omega
    · rw [if_neg h, if_neg (fun h' => h ((ge_iff_shiftRight_ne v).mpr h'))]
      rfl

theorem uvarint_length (v : UInt64) : (uvarint v).length = uvarintLen v := uvarintLoop_length 9 v

theorem appendPath_length (path : List UInt64) : (appendPath path).length = pathLen path := by
  have hzero : (uvarint 0).length = 1 := rfl
  rw [appendPath, List.length_append, hzero, pathLen, List.length_flatMap]
  simp only [uvarint_length]

namespace Traffic

/-- `Traffic::encoded_len`. -/
def encodedLen (t : Traffic) : Nat :=
  pathLen t.path + pathLen t.from + 2 * keyLen + uvarintLen t.watermark + t.payload.length

/-- The bytes `encode_to` writes one after the other. -/
def bytes (t : Traffic) : Bytes :=
  appendPath t.path ++ appendPath t.from ++ t.source.toList ++ t.dest.toList ++
    uvarint t.watermark ++ t.payload

/-- `Traffic::encode_to` into a buffer of `room` bytes: too small is an error, and
writing past its end would be a slice out of range. -/
def encodeTo (t : Traffic) (room : Nat) : Except Exit Bytes :=
  if room < t.encodedLen then .error (.err .invalidLength)
  else if room < t.bytes.length then .error .panic
  else .ok t.bytes

/-- `Traffic::encode`, with its `expect`. -/
def encode (t : Traffic) : Except Exit Bytes :=
  match t.encodeTo t.encodedLen with
  | .ok b => .ok b
  | .error _ => .error .panic

theorem bytes_length (t : Traffic) : t.bytes.length = t.encodedLen := by
  simp only [bytes, encodedLen, List.length_append, appendPath_length, uvarint_length,
    List.Vector.toList_length]
  omega

/-- The size is computed right, so the `expect` never fails. -/
theorem encode_eq (t : Traffic) : t.encode = .ok t.bytes := by
  have hto : t.encodeTo t.encodedLen = .ok t.bytes := by
    rw [encodeTo, if_neg (lt_irrefl _), bytes_length, if_neg (lt_irrefl _)]
  rw [encode, hto]

def decode (buf : Bytes) : Except Exit Traffic := do
  let (path, rest) ← splitPath buf
  let (back, rest) ← splitPath rest
  let ((source, dest), tail) ← takeKeys rest
  let (watermark, payload) ← takeUvarint tail
  return { path, «from» := back, source, dest, watermark, payload }

theorem decode_refuses (buf : Bytes) : Refuses (decode buf) :=
  .bind (splitPath_refuses _) fun _ => .bind (splitPath_refuses _) fun _ =>
    .bind (takeKeys_refuses _) fun _ => .bind (takeUvarint_refuses _) fun _ => .pure _

end Traffic

end Roots

import Roots.Address
import Roots.Wire.Reader

/-!
# Roots.Bloom

The bloom filters of `src/bloom.rs`: 8192 bits in 128 words, eight locations a key
from two Murmur3 passes, and the wire encoding, which flags the words that are all
zeros or all ones and spells the others out.
-/

namespace Roots

open Wire

/-! ## Murmur3 -/

namespace Murmur

def c1 : UInt64 := 0x87c37b91114253d5
def c2 : UInt64 := 0x4cf5ad432745937f

/-- `u64::rotate_left`, for `0 < n < 64`. -/
def rotateLeft (x n : UInt64) : UInt64 := (x <<< n) ||| (x >>> (64 - n))

def mixK1 (k : UInt64) : UInt64 := rotateLeft (k * c1) 31 * c2

def mixK2 (k : UInt64) : UInt64 := rotateLeft (k * c2) 33 * c1

/-- `bmix_words`. -/
def bmixWords (h : UInt64 × UInt64) (k1 k2 : UInt64) : UInt64 × UInt64 :=
  let h1 := (rotateLeft (h.1 ^^^ mixK1 k1) 27 + h.2) * 5 + 0x52dce729
  let h2 := (rotateLeft (h.2 ^^^ mixK2 k2) 31 + h1) * 5 + 0x38495ab5
  (h1, h2)

def fmix (k : UInt64) : UInt64 :=
  let k := (k ^^^ (k >>> 33)) * 0xff51afd7ed558ccd
  let k := (k ^^^ (k >>> 33)) * 0xc4ceb9fe1a85ec53
  k ^^^ (k >>> 33)

/-- The bytes as a little-endian number on top of `k` (`k ^= b << (8 * i)`). -/
def xorBytes (k : UInt64) (b : Bytes) : UInt64 :=
  b.zipIdx.foldl (fun k bi => k ^^^ (bi.1.toUInt64 <<< UInt64.ofNat (8 * bi.2))) k

/-- `le_u64`. -/
def leU64 (b : Bytes) : UInt64 := xorBytes 0 b

/-- The state of `sum128` before its tail: the two halves and the two tail words. -/
structure Tail where
  h1 : UInt64
  h2 : UInt64
  k1 : UInt64
  k2 : UInt64

/-- The padding byte of the second pass, at the position after the tail. At positions
1 and 9 it is a word of its own and is mixed in at once. -/
def padTail (h : UInt64 × UInt64) (tailLen : Nat) : Tail :=
  let n := (tailLen + 1) % 16
  if n = 9 then ⟨h.1, h.2 ^^^ mixK2 1, 0, mixK2 1⟩
  else if 10 ≤ n then ⟨h.1, h.2, 0, 1 <<< UInt64.ofNat (8 * (n - 9))⟩
  else if n = 1 then ⟨h.1 ^^^ mixK1 1, h.2, mixK1 1, 0⟩
  else if 2 ≤ n then ⟨h.1, h.2, 1 <<< UInt64.ofNat (8 * (n - 1)), 0⟩
  else ⟨h.1, h.2, 0, 0⟩

/-- `sum128`. -/
def sum128 (h : UInt64 × UInt64) (pad : Bool) (length : Nat) (tail : Bytes) : UInt64 × UInt64 :=
  let t := if pad then padTail h tail.length else ⟨h.1, h.2, 0, 0⟩
  let h2 := if 9 ≤ tail.length % 16 then t.h2 ^^^ mixK2 (xorBytes t.k2 (tail.drop 8)) else t.h2
  let h1 := if 0 < tail.length then t.h1 ^^^ mixK1 (xorBytes t.k1 (tail.take 8)) else t.h1
  let h1 := h1 ^^^ UInt64.ofNat length
  let h2 := h2 ^^^ UInt64.ofNat length
  let h1 := h1 + h2
  let h2 := h2 + h1
  let h1 := fmix h1
  let h2 := fmix h2
  let h1 := h1 + h2
  (h1, h2 + h1)

/-- The full 16-byte blocks, `n` of them. -/
def blocks : Nat → Bytes → UInt64 × UInt64 → UInt64 × UInt64
  | 0, _, h => h
  | n + 1, data, h =>
      blocks n (data.drop 16) (bmixWords h (leU64 (data.take 8)) (leU64 ((data.drop 8).take 8)))

/-- `base_hashes`. -/
def baseHashes (data : Bytes) : List.Vector UInt64 4 :=
  let nblocks := data.length / 16
  let h := blocks nblocks data (0, 0)
  let tail := data.drop (nblocks * 16)
  let first := sum128 h false data.length tail
  let second :=
    if tail.length + 1 = 16 then
      -- No room in the tail for the padding byte: one more full block.
      sum128 (bmixWords h (leU64 (tail.take 8)) (leU64 (tail.drop 8 ++ [1]))) false
        (data.length + 1) []
    else sum128 h true (data.length + 1) tail
  ⟨[first.1, first.2, second.1, second.2], rfl⟩

end Murmur

/-- `location`. -/
def location (h : List.Vector UInt64 4) (i : Nat) : UInt64 :=
  h.toList.getD (i % 2) 0 + UInt64.ofNat i * h.toList.getD (2 + (i + i % 2) % 4 / 2) 0

/-- `locations_for`. -/
def locationsFor (data : Bytes) : List Nat :=
  let h := Murmur.baseHashes data
  (List.range 8).map fun i => (location h i).toNat % 8192

/-! ## Filters -/

/-- `BloomFilter`. -/
structure BloomFilter where
  words : List.Vector UInt64 128
deriving DecidableEq

namespace BloomFilter

def empty : BloomFilter := ⟨List.Vector.replicate 128 0⟩

/-- The mask of a location within its word. -/
def bit (l : Nat) : UInt64 := 1 <<< UInt64.ofNat (l % 64)

/-- Set the bit of a location. -/
def setBit (b : BloomFilter) (l : Nat) : BloomFilter :=
  ⟨b.words.toList.modify (l / 64) (· ||| bit l), by simp⟩

/-- `BloomFilter::add`. -/
def add (b : BloomFilter) (data : Bytes) : BloomFilter := (locationsFor data).foldl setBit b

/-- `BloomFilter::test`. -/
def test (b : BloomFilter) (data : Bytes) : Bool :=
  (locationsFor data).all fun l => b.words.toList.getD (l / 64) 0 &&& bit l ≠ 0

/-- `BloomFilter::merge`. -/
def merge (b other : BloomFilter) : BloomFilter :=
  ⟨List.Vector.map₂ (· ||| ·) b.words other.words⟩

/-! ## Members

A filter has no false negatives: what was added or merged in tests as a member. -/

/-- The bit of a location is set. -/
def HasBit (b : BloomFilter) (l : Nat) : Prop := b.words.toList.getD (l / 64) 0 &&& bit l ≠ 0

theorem test_eq_true {b : BloomFilter} {data : Bytes} :
    b.test data = true ↔ ∀ l ∈ locationsFor data, b.HasBit l := by
  simp [test, HasBit]

theorem lt_of_mem_locationsFor {data : Bytes} {l : Nat} (h : l ∈ locationsFor data) : l < 8192 := by
  obtain ⟨i, -, rfl⟩ := List.mem_map.mp h
  exact Nat.mod_lt _ (by decide)

theorem bit_ne_zero (l : Nat) : bit l ≠ 0 := by
  have hbits : ∀ n < 64, (1 : UInt64) <<< UInt64.ofNat n ≠ 0 := by decide
  exact hbits (l % 64) (Nat.mod_lt _ (by decide))

theorem or_and_self (x m : UInt64) : (x ||| m) &&& m = m := by
  apply UInt64.toBitVec_inj.mp
  ext i hi
  simp only [UInt64.toBitVec_and, UInt64.toBitVec_or, BitVec.getElem_and, BitVec.getElem_or]
  cases m.toBitVec[i] <;> simp

theorem or_and_ne_zero {x m : UInt64} (y : UInt64) (h : x &&& m ≠ 0) : (x ||| y) &&& m ≠ 0 := by
  have hdistrib : (x ||| y) &&& m = (x &&& m) ||| (y &&& m) := by
    apply UInt64.toBitVec_inj.mp
    simp [BitVec.and_or_distrib_right]
  rw [hdistrib]
  exact fun hzero => h (UInt64.or_eq_zero_iff.mp hzero).1

theorem hasBit_setBit (b : BloomFilter) {l : Nat} (hl : l < 8192) : (b.setBit l).HasBit l := by
  have hlt : l / 64 < b.words.toList.length := by
    rw [List.Vector.toList_length]
    omega
  simp only [HasBit, setBit, List.Vector.toList_mk, List.getD_eq_getElem?_getD,
    List.getElem?_modify, List.getElem?_eq_getElem hlt]
  simp [or_and_self, bit_ne_zero]

theorem HasBit.setBit {b : BloomFilter} {l : Nat} (h : b.HasBit l) (l' : Nat) :
    (b.setBit l').HasBit l := by
  simp only [HasBit, BloomFilter.setBit, List.Vector.toList_mk, List.getD_eq_getElem?_getD,
    List.getElem?_modify] at h ⊢
  split_ifs with heq
  · cases hget : b.words.toList[l / 64]? with
    | none => simp [hget] at h
    | some x =>
      simp only [hget, Option.getD_some] at h
      exact or_and_ne_zero _ h
  · simpa using h

theorem HasBit.foldl_setBit {b : BloomFilter} {l : Nat} (h : b.HasBit l) (ls : List Nat) :
    (ls.foldl BloomFilter.setBit b).HasBit l := by
  induction ls generalizing b with
  | nil => exact h
  | cons l' ls ih => exact ih (h.setBit l')

theorem hasBit_foldl_setBit (b : BloomFilter) {l : Nat} (hl : l < 8192) (ls : List Nat)
    (hmem : l ∈ ls) : (ls.foldl BloomFilter.setBit b).HasBit l := by
  induction ls generalizing b with
  | nil => cases hmem
  | cons l' ls ih =>
    rcases List.mem_cons.mp hmem with rfl | hmem
    · exact (hasBit_setBit b hl).foldl_setBit ls
    · exact ih (b.setBit l') hmem

/-- What was added is a member. -/
theorem test_add (b : BloomFilter) (data : Bytes) : (b.add data).test data = true :=
  test_eq_true.mpr fun _ hl => hasBit_foldl_setBit b (lt_of_mem_locationsFor hl) _ hl

theorem HasBit.merge {b : BloomFilter} {l : Nat} (h : b.HasBit l) (other : BloomFilter) :
    (b.merge other).HasBit l := by
  obtain ⟨⟨ws, hws⟩⟩ := b
  obtain ⟨⟨vs, hvs⟩⟩ := other
  simp only [HasBit, BloomFilter.merge, List.Vector.map₂, List.Vector.toList_mk,
    List.getD_eq_getElem?_getD, List.getElem?_zipWith] at h ⊢
  cases hget : ws[l / 64]? with
  | none => simp [hget] at h
  | some x =>
    have hlt := (List.getElem?_eq_some_iff.mp hget).1
    have hother : vs[l / 64]? = some vs[l / 64] := List.getElem?_eq_getElem (by omega)
    simp only [hget, hother, Option.getD_some] at h ⊢
    exact or_and_ne_zero _ h

theorem merge_comm (b other : BloomFilter) : b.merge other = other.merge b := by
  obtain ⟨⟨ws, hws⟩⟩ := b
  obtain ⟨⟨vs, hvs⟩⟩ := other
  simp only [merge, List.Vector.map₂]
  congr 2
  exact List.zipWith_comm_of_comm UInt64.or_comm

/-- A member of either filter is one of the merged filter. -/
theorem test_merge_left {b : BloomFilter} {data : Bytes} (h : b.test data = true)
    (other : BloomFilter) : (b.merge other).test data = true :=
  test_eq_true.mpr fun l hl => (test_eq_true.mp h l hl).merge other

theorem test_merge_right {other : BloomFilter} {data : Bytes} (b : BloomFilter)
    (h : other.test data = true) : (b.merge other).test data = true := by
  rw [merge_comm]
  exact test_merge_left h b

/-! ## Encoding -/

/-- `MAX_ENCODED_LEN`. -/
def maxEncodedLen : Nat := 2 * 16 + 8 * 128

/-- Whether a word is spelled out. -/
def isData (w : UInt64) : Bool := w != 0 && w != 0xffffffffffffffff

/-- The bytes `encode_to` writes: flags for the words that are all zeros, flags for
those that are all ones, then the others. -/
def bytes (b : BloomFilter) : Bytes :=
  let ws := b.words.toList
  (packBits 16 (ws.map (· == 0))).toList ++
    (packBits 16 (ws.map (· == 0xffffffffffffffff))).toList ++
    (ws.filter isData).flatMap toBeBytes

/-- `BloomFilter::encode_to` into a buffer of `room` bytes. -/
def encodeTo (b : BloomFilter) (room : Nat) : Except Exit Bytes :=
  if room < 2 * 16 + 8 * b.words.toList.countP isData then .error (.err .invalidLength)
  else if room < b.bytes.length then .error .panic
  else .ok b.bytes

/-- `BloomFilter::encode`, with its `expect`. -/
def encode (b : BloomFilter) : Except Exit Bytes :=
  match b.encodeTo maxEncodedLen with
  | .ok e => .ok e
  | .error _ => .error .panic

theorem bytes_length (b : BloomFilter) :
    b.bytes.length = 2 * 16 + 8 * b.words.toList.countP isData := by
  simp only [bytes, List.length_append, List.Vector.toList_length, List.length_flatMap,
    toBeBytes_length, List.map_const', List.sum_replicate, List.countP_eq_length_filter,
    nsmul_eq_mul, Nat.cast_id]
  omega

/-- A filter has 128 words, so the `expect` never fails. -/
theorem encode_eq (b : BloomFilter) : b.encode = .ok b.bytes := by
  have hle : b.words.toList.countP isData ≤ 128 :=
    List.countP_le_length.trans (by rw [List.Vector.toList_length])
  have hto : b.encodeTo maxEncodedLen = .ok b.bytes := by
    rw [encodeTo, bytes_length, if_neg (by unfold maxEncodedLen; omega),
      if_neg (by unfold maxEncodedLen; omega)]
  rw [encode, hto]

/-- Whether word `idx` is flagged. -/
def flagged (flags : Bytes) (idx : Nat) : Bool :=
  flags.getD (idx / 8) 0 &&& (0x80 >>> UInt8.ofNat (idx % 8)) ≠ 0

/-- One round of the loop of `decode_exact`. -/
def decodeWord (flags0 flags1 : Bytes) (idx : Nat) (rest : Bytes) :
    Except Exit (UInt64 × Bytes) :=
  match flagged flags0 idx, flagged flags1 idx with
  | true, true => .error (.err .invalidLength)
  | true, false => .ok (0, rest)
  | false, true => .ok (0xffffffffffffffff, rest)
  | false, false => do
      let (w, rest) ← takeArray 8 rest
      return (fromBeBytes w.toList, rest)

/-- The loop of `decode_exact` over the `n` words from `idx` on. -/
def decodeWords (flags0 flags1 : Bytes) :
    (n idx : Nat) → Bytes → Except Exit (List.Vector UInt64 n × Bytes)
  | 0, _, rest => .ok (.nil, rest)
  | n + 1, idx, rest => do
      let (w, rest) ← decodeWord flags0 flags1 idx rest
      let (ws, rest) ← decodeWords flags0 flags1 n (idx + 1) rest
      return (w ::ᵥ ws, rest)

/-- `BloomFilter::decode_exact`. -/
def decodeExact (buf : Bytes) : Except Exit BloomFilter := do
  let (flags0, rest) ← takeArray 16 buf
  let (flags1, rest) ← takeArray 16 rest
  let words ← decodeWords flags0.toList flags1.toList 128 0 rest >>= exact
  return ⟨words⟩

theorem decodeWord_refuses (flags0 flags1 : Bytes) (idx : Nat) (rest : Bytes) :
    Refuses (decodeWord flags0 flags1 idx rest) := by
  unfold decodeWord
  split
  · exact .invalid
  · exact .ok _
  · exact .ok _
  · exact .bind (takeArray_refuses _ _) fun _ => .pure _

theorem decodeWords_refuses (flags0 flags1 : Bytes) : ∀ (n idx : Nat) (rest : Bytes),
    Refuses (decodeWords flags0 flags1 n idx rest) := by
  intro n
  induction n with
  | zero =>
    intro idx rest
    exact .ok _
  | succ n ih =>
    intro idx rest
    exact .bind (decodeWord_refuses _ _ _ _) fun _ => .bind (ih _ _) fun _ => .pure _

theorem decodeExact_refuses (buf : Bytes) : Refuses (decodeExact buf) :=
  .bind (takeArray_refuses _ _) fun _ => .bind (takeArray_refuses _ _) fun _ =>
    .bind (.bind (decodeWords_refuses _ _ _ _ _) fun _ => exact_refuses _) fun _ => .pure _

end BloomFilter

end Roots

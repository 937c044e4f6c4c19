import Mathlib.Data.Vector.Basic
import Mathlib.Algebra.Ring.Defs
import Mathlib.Data.List.Sort

/-!
# Roots.Bytes

Byte strings, fixed-width byte arrays, the order of keys and the big-endian `u64`
fields of the wire formats. A `[u8; N]` of the source is `List.Vector UInt8 N`, so a key of
the wrong length cannot be written down; a `&[u8]` or `Vec<u8>` is `Bytes`.
-/

namespace Roots

abbrev Bytes := List UInt8

/-- A `String`. -/
abbrev Text := List Char

/-- `KEY_LEN` of `core/src/address.rs`. -/
abbrev keyLen : Nat := 32

/-- A 32-byte array: ed25519 public keys and seeds, X25519 public and private
keys. -/
abbrev Key := List.Vector UInt8 keyLen

/-- The clock of the source (`std::time::Instant`), in nanoseconds. -/
abbrev Instant := Nat

/-- `Duration::from_secs`. -/
def seconds (n : Nat) : Nat := n * 1000000000

/-- `slice.try_into()` for a `[u8; N]`: fails exactly on the wrong length. -/
def arrayOf (n : Nat) (b : Bytes) : Option (List.Vector UInt8 n) :=
  if h : b.length = n then some ⟨b, h⟩ else none

@[simp]
theorem arrayOf_toList {n : Nat} (v : List.Vector UInt8 n) :
    arrayOf n v.toList = some v := by
  simp [arrayOf]

theorem arrayOf_eq_some_iff {n : Nat} {b : Bytes} {v : List.Vector UInt8 n} :
    arrayOf n b = some v ↔ b = v.toList := by
  constructor
  · intro h
    unfold arrayOf at h
    split at h
    · cases h
      rfl
    · cases h
  · rintro rfl
    exact arrayOf_toList v

/-! ## Big-endian 64-bit fields -/

/-- `u64::to_be_bytes`. -/
def toBeBytes (v : UInt64) : Bytes :=
  [(v >>> 56).toUInt8, (v >>> 48).toUInt8, (v >>> 40).toUInt8, (v >>> 32).toUInt8,
    (v >>> 24).toUInt8, (v >>> 16).toUInt8, (v >>> 8).toUInt8, v.toUInt8]

/-- `u64::from_be_bytes`. -/
def fromBeBytes (b : Bytes) : UInt64 :=
  UInt64.ofNat (b.foldl (fun acc x => acc * 256 + x.toNat) 0)

@[simp]
theorem toBeBytes_length (v : UInt64) : (toBeBytes v).length = 8 := rfl

@[simp]
theorem fromBeBytes_toBeBytes (v : UInt64) : fromBeBytes (toBeBytes v) = v := by
  have hv := v.toNat_lt
  apply UInt64.toNat_inj.mp
  simp only [fromBeBytes, toBeBytes, List.foldl_cons, List.foldl_nil,
    UInt64.toNat_toUInt8, UInt64.toNat_shiftRight, UInt64.toNat_ofNat',
    Nat.shiftRight_eq_div_pow]
  simp only [UInt64.reduceToNat, Nat.reduceMod, Nat.reducePow]
  omega

theorem toBeBytes_injective : Function.Injective toBeBytes :=
  Function.LeftInverse.injective fromBeBytes_toBeBytes

/-! ## The order of keys

The source compares `[u8; 32]` byte by byte, first byte first. For arrays of one length
that is the order of the numbers they spell. -/

/-- The number a key spells, most significant byte first. -/
def keyNat (k : Key) : Nat := k.toList.foldl (fun acc b => acc * 256 + b.toNat) 0

theorem foldl_digits_inj {l l' : Bytes} {acc acc' : Nat} (hlen : l.length = l'.length)
    (h : l.foldl (fun acc b => acc * 256 + b.toNat) acc =
      l'.foldl (fun acc b => acc * 256 + b.toNat) acc') : acc = acc' ∧ l = l' := by
  induction l generalizing l' acc acc' with
  | nil =>
    cases l' with
    | nil => exact ⟨h, rfl⟩
    | cons _ _ => simp at hlen
  | cons b l ih =>
    cases l' with
    | nil => simp at hlen
    | cons b' l' =>
      rw [List.foldl_cons, List.foldl_cons] at h
      obtain ⟨hacc, rfl⟩ := ih (Nat.succ.inj hlen) h
      have hb := b.toNat_lt
      have hb' := b'.toNat_lt
      refine ⟨by omega, ?_⟩
      rw [UInt8.toNat_inj.mp (show b.toNat = b'.toNat by omega)]

theorem keyNat_injective : Function.Injective keyNat := by
  intro k k' h
  exact List.Vector.toList_injective
    (foldl_digits_inj (by rw [k.toList_length, k'.toList_length]) h).2

-- Named, so that membership of a list of keys is decided by one term everywhere.
instance : LawfulBEq Key := inferInstance

instance : LT Key := ⟨fun a b => keyNat a < keyNat b⟩

instance : LE Key := ⟨fun a b => keyNat a ≤ keyNat b⟩

instance (a b : Key) : Decidable (a < b) := inferInstanceAs (Decidable (keyNat a < keyNat b))

instance (a b : Key) : Decidable (a ≤ b) := inferInstanceAs (Decidable (keyNat a ≤ keyNat b))

theorem Key.lt_iff {a b : Key} : a < b ↔ keyNat a < keyNat b := Iff.rfl

/-- `keys.sort()`. -/
def sortKeys (keys : List Key) : List Key := keys.insertionSort (· ≤ ·)

theorem nodup_sortKeys {keys : List Key} (h : keys.Nodup) : (sortKeys keys).Nodup :=
  (List.perm_insertionSort _ keys).nodup_iff.mpr h

@[simp]
theorem mem_sortKeys {k : Key} {keys : List Key} : k ∈ sortKeys keys ↔ k ∈ keys :=
  List.mem_insertionSort _

end Roots

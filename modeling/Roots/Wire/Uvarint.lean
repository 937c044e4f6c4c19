import Mathlib.Tactic.Ring
import Roots.Bytes

/-!
# Roots.Wire.Uvarint

The base-128 integers of `src/frame.rs`: seven bits a byte, lowest group first,
the high bit set on every byte but the last.

`readUvarint_uvarint` is the fact every codec above rests on: reading what was
appended gives the value back and the number of bytes it took, whatever
follows.
-/

namespace Roots.Wire

/-- The `while v >= 0x80` loop of `append_uvarint`, with the number of further
rounds as fuel. Nine are enough: a `u64` shifted right by 63 bits is below
`0x80` (`uvarintLoop_fuel`). -/
def uvarintLoop : Nat → UInt64 → Bytes
  | 0, v => [v.toUInt8]
  | fuel + 1, v =>
      if v ≥ 0x80 then (v.toUInt8 ||| 0x80) :: uvarintLoop fuel (v >>> 7)
      else [v.toUInt8]

/-- The bytes `append_uvarint` pushes for `v`. -/
def uvarint (v : UInt64) : Bytes := uvarintLoop 9 v

/-- `append_uvarint`. -/
def appendUvarint (out : Bytes) (v : UInt64) : Bytes := out ++ uvarint v

/-- The loop of `read_uvarint` at byte `i` with the bits `x` read so far. -/
def readUvarintLoop (i : Nat) (x : UInt64) : Bytes → Option (UInt64 × Nat)
  | [] => none
  | b :: rest =>
      if 10 ≤ i then none
      else if b < 0x80 then
        if i = 9 ∧ b > 1 then none
        else some (x ||| (b.toUInt64 <<< UInt64.ofNat (7 * i)), i + 1)
      else readUvarintLoop (i + 1) (x ||| ((b &&& 0x7f).toUInt64 <<< UInt64.ofNat (7 * i))) rest

/-- `read_uvarint`: the value and the number of bytes it took. -/
def readUvarint (buf : Bytes) : Option (UInt64 × Nat) := readUvarintLoop 0 0 buf

/-! ## One round of the loop on naturals -/

theorem uvarintLoop_zero (v : UInt64) : uvarintLoop 0 v = [v.toUInt8] := rfl

theorem uvarintLoop_succ (fuel : Nat) (v : UInt64) :
    uvarintLoop (fuel + 1) v =
      if v ≥ 0x80 then (v.toUInt8 ||| 0x80) :: uvarintLoop fuel (v >>> 7) else [v.toUInt8] := rfl

theorem uvarintLoop_ne_nil (fuel : Nat) (v : UInt64) : uvarintLoop fuel v ≠ [] := by
  cases fuel with
  | zero => simp [uvarintLoop_zero]
  | succ fuel =>
    rw [uvarintLoop_succ]
    split <;> simp

theorem uvarint_length_pos (v : UInt64) : 1 ≤ (uvarint v).length :=
  List.length_pos_iff.mpr (uvarintLoop_ne_nil 9 v)

private theorem toNat_shiftRight_seven (v : UInt64) : (v >>> 7).toNat = v.toNat / 128 := by
  rw [UInt64.toNat_shiftRight]
  simp [Nat.shiftRight_eq_div_pow]

private theorem ge_continuation_iff (v : UInt64) : v ≥ 0x80 ↔ 128 ≤ v.toNat := by
  rw [ge_iff_le, UInt64.le_iff_toNat_le]
  rfl

private theorem two_pow_seven_succ (i : Nat) : 2 ^ (7 * (i + 1)) = 128 * 2 ^ (7 * i) := by
  rw [Nat.mul_succ, Nat.pow_add, Nat.mul_comm]

private theorem toNat_shiftRight_lt {v : UInt64} {n : Nat} (h : v.toNat < 2 ^ (7 * (n + 1))) :
    (v >>> 7).toNat < 2 ^ (7 * n) := by
  rw [two_pow_seven_succ] at h
  rw [toNat_shiftRight_seven]
  exact Nat.div_lt_of_lt_mul h

private theorem toNat_toUInt8_of_lt {v : UInt64} (h : v.toNat < 128) :
    v.toUInt8.toNat = v.toNat := by
  rw [UInt64.toNat_toUInt8]
  omega

private theorem toUInt8_lt_of_lt {v : UInt64} (h : v.toNat < 128) : v.toUInt8 < 0x80 := by
  rw [UInt8.lt_iff_toNat_lt, toNat_toUInt8_of_lt h]
  exact h

private theorem toNat_low_bits (v : UInt64) :
    ((v.toUInt8 ||| 0x80) &&& 0x7f).toNat = v.toNat % 128 := by
  have hdistrib : (v.toUInt8 ||| 0x80) &&& 0x7f = v.toUInt8 &&& 0x7f := by
    apply UInt8.toBitVec_inj.mp
    ext i hi
    rcases i with _ | _ | _ | _ | _ | _ | _ | _ | i <;> simp at hi ⊢
    omega
  rw [hdistrib, UInt8.toNat_and, show (0x7f : UInt8).toNat = 2 ^ 7 - 1 from rfl,
    Nat.and_two_pow_sub_one_eq_mod, UInt64.toNat_toUInt8]
  omega

private theorem continuation_not_lt (b : UInt8) : ¬ (b ||| 0x80) < 0x80 := by
  rw [UInt8.lt_iff_toNat_lt, UInt8.toNat_or]
  have := Nat.right_le_or (n := b.toNat) (m := (0x80 : UInt8).toNat)
  omega

/-- Adding the next seven-bit group is an addition, since the bits below
position `7 * i` are the only ones set so far. -/
private theorem toNat_or_shift {x b : UInt64} {i : Nat} (hi : i ≤ 9)
    (hx : x.toNat < 2 ^ (7 * i)) (hb : b.toNat * 2 ^ (7 * i) < 2 ^ 64) :
    (x ||| (b <<< UInt64.ofNat (7 * i))).toNat = x.toNat + b.toNat * 2 ^ (7 * i) := by
  have hshift : (UInt64.ofNat (7 * i)).toNat % 64 = 7 * i := by
    rw [UInt64.toNat_ofNat', Nat.mod_mod_of_dvd _ (by decide), Nat.mod_eq_of_lt (by omega)]
  rw [UInt64.toNat_or, UInt64.toNat_shiftLeft, hshift, Nat.shiftLeft_eq, Nat.mod_eq_of_lt hb,
    Nat.or_comm, Nat.mul_comm, ← Nat.two_pow_add_eq_or_of_lt hx]
  omega

/-! ## Reading what was appended -/

/-- The reader at byte `i` finishes the value the loop still has to write: the
invariant is that `x` holds the groups below bit `7 * i` and `v` the rest. -/
private theorem readUvarintLoop_uvarintLoop (suffix : Bytes) :
    ∀ (fuel i : Nat) (x v : UInt64), i + fuel = 9 → x.toNat < 2 ^ (7 * i) →
      v.toNat * 2 ^ (7 * i) < 2 ^ 64 →
      ∃ w : UInt64, w.toNat = x.toNat + v.toNat * 2 ^ (7 * i) ∧
        readUvarintLoop i x (uvarintLoop fuel v ++ suffix) =
          some (w, i + (uvarintLoop fuel v).length) := by
  intro fuel
  induction fuel with
  | zero =>
    intro i x v hfuel hx hv
    -- The tenth byte carries at most one bit.
    obtain rfl : i = 9 := by omega
    have hvlt : v.toNat < 2 := by
      have : v.toNat * 2 ^ 63 < 2 ^ 64 := hv
      omega
    have hbyte := toNat_toUInt8_of_lt (v := v) (by omega)
    have hb : v.toUInt8.toUInt64.toNat = v.toNat := by rw [UInt8.toNat_toUInt64, hbyte]
    refine ⟨_, (toNat_or_shift (b := v.toUInt8.toUInt64) le_rfl hx (by rw [hb]; exact hv)).trans
      (by rw [hb]), ?_⟩
    have h80 := toUInt8_lt_of_lt (v := v) (by omega)
    have h1 : ¬ v.toUInt8 > 1 := by
      rw [gt_iff_lt, UInt8.lt_iff_toNat_lt, hbyte]
      exact Nat.not_lt.mpr (Nat.le_of_lt_succ hvlt)
    simp [uvarintLoop_zero, readUvarintLoop, h80, h1]
  | succ fuel ih =>
    intro i x v hfuel hx hv
    rw [uvarintLoop_succ]
    split
    · rename_i hge
      -- One continuation byte: seven bits move from `v` to `x`.
      have hlow := toNat_low_bits v
      have hb : ((v.toUInt8 ||| 0x80) &&& 0x7f).toUInt64.toNat = v.toNat % 128 := by
        rw [UInt8.toNat_toUInt64, hlow]
      have hmod : v.toNat % 128 * 2 ^ (7 * i) ≤ v.toNat * 2 ^ (7 * i) :=
        Nat.mul_le_mul_right _ (Nat.mod_le _ _)
      have hx' := toNat_or_shift (b := ((v.toUInt8 ||| 0x80) &&& 0x7f).toUInt64)
        (by omega : i ≤ 9) hx (by rw [hb]; omega)
      rw [hb] at hx'
      have hpow := two_pow_seven_succ i
      have hsplit : v.toNat * 2 ^ (7 * i) =
          v.toNat % 128 * 2 ^ (7 * i) + v.toNat / 128 * 2 ^ (7 * (i + 1)) := by
        rw [hpow]
        conv_lhs => rw [← Nat.mod_add_div v.toNat 128]
        ring
      have hlt : v.toNat % 128 * 2 ^ (7 * i) ≤ 127 * 2 ^ (7 * i) :=
        Nat.mul_le_mul_right _ (by omega)
      obtain ⟨w, hw, hread⟩ := ih (i + 1)
        (x ||| (((v.toUInt8 ||| 0x80) &&& 0x7f).toUInt64 <<< UInt64.ofNat (7 * i))) (v >>> 7)
        (by omega) (by rw [hx', hpow]; omega) (by rw [toNat_shiftRight_seven]; omega)
      refine ⟨w, ?_, ?_⟩
      · rw [hw, hx', toNat_shiftRight_seven]
        omega
      · rw [List.cons_append, readUvarintLoop, if_neg (by omega),
          if_neg (continuation_not_lt _), hread, List.length_cons]
        simp only [Option.some.injEq, Prod.mk.injEq, true_and]
        omega
    · rename_i hlt
      rw [ge_continuation_iff, Nat.not_le] at hlt
      have hb : v.toUInt8.toUInt64.toNat = v.toNat := by
        rw [UInt8.toNat_toUInt64, toNat_toUInt8_of_lt hlt]
      refine ⟨_, (toNat_or_shift (b := v.toUInt8.toUInt64) (by omega : i ≤ 9) hx
        (by rw [hb]; exact hv)).trans (by rw [hb]), ?_⟩
      have h80 := toUInt8_lt_of_lt hlt
      have h10 : ¬ 10 ≤ i := by omega
      have h9 : ¬ i = 9 := by omega
      simp [readUvarintLoop, h80, h10, h9]

/-- Reading an appended `u64` gives it back with the number of bytes it took,
whatever follows. -/
@[simp]
theorem readUvarint_uvarint (v : UInt64) (suffix : Bytes) :
    readUvarint (uvarint v ++ suffix) = some (v, (uvarint v).length) := by
  obtain ⟨w, hw, hread⟩ := readUvarintLoop_uvarintLoop suffix 9 0 0 v rfl (by simp)
    (by simpa using v.toNat_lt)
  have : w = v := UInt64.toNat_inj.mp (by simpa using hw)
  subst this
  simpa [readUvarint, uvarint] using hread

/-- Nine rounds of fuel never cut the loop short: at fuel zero the remaining
value is below `0x80`, so `uvarint` unfolds as the source's loop does. -/
theorem uvarintLoop_fuel : ∀ (fuel : Nat) (v : UInt64), v.toNat < 2 ^ (7 * (fuel + 1)) →
    uvarintLoop (fuel + 1) v = uvarintLoop fuel v := by
  intro fuel
  induction fuel with
  | zero =>
    intro v hv
    have hsmall : ¬ v ≥ 0x80 := fun h => Nat.not_le.mpr hv ((ge_continuation_iff v).mp h)
    simp [uvarintLoop_succ, uvarintLoop_zero, hsmall]
  | succ fuel ih =>
    intro v hv
    rw [uvarintLoop_succ, ih _ (toNat_shiftRight_lt hv), uvarintLoop_succ]

/-- The source's loop, one round at a time. -/
theorem uvarint_eq (v : UInt64) :
    uvarint v = if v ≥ 0x80 then (v.toUInt8 ||| 0x80) :: uvarint (v >>> 7) else [v.toUInt8] := by
  have hfuel := uvarintLoop_fuel 9 v (lt_of_lt_of_le v.toNat_lt (by decide))
  rw [uvarint, ← hfuel, uvarintLoop_succ, uvarint]

example : uvarint 300 = [0xac, 0x02] := by decide

/-! ## The bytes of a value -/

private theorem uvarintLoop_eq_concat : ∀ (fuel : Nat) (v : UInt64), v.toNat < 2 ^ (7 * (fuel + 1)) →
    ∃ init last, uvarintLoop fuel v = init ++ [last] ∧ last < 0x80 ∧ (∀ b ∈ init, ¬ b < 0x80) ∧
      init.length ≤ fuel := by
  intro fuel
  induction fuel with
  | zero =>
    intro v hv
    exact ⟨[], v.toUInt8, rfl, toUInt8_lt_of_lt hv, by simp, le_rfl⟩
  | succ fuel ih =>
    intro v hv
    rw [uvarintLoop_succ]
    split
    · obtain ⟨init, last, heq, hlast, hinit, hlen⟩ := ih _ (toNat_shiftRight_lt hv)
      refine ⟨(v.toUInt8 ||| 0x80) :: init, last, by rw [heq]; rfl, hlast, ?_, ?_⟩
      · intro b hb
        rcases List.mem_cons.mp hb with rfl | hb
        · exact continuation_not_lt _
        · exact hinit b hb
      · exact Nat.succ_le_succ hlen
    · rename_i hlt
      rw [ge_continuation_iff, Nat.not_le] at hlt
      exact ⟨[], v.toUInt8, rfl, toUInt8_lt_of_lt hlt, by simp, Nat.zero_le _⟩

/-- All bytes but the last have the high bit set, and there are at most ten. -/
theorem uvarint_eq_concat (v : UInt64) :
    ∃ init last, uvarint v = init ++ [last] ∧ last < 0x80 ∧ (∀ b ∈ init, ¬ b < 0x80) ∧
      init.length ≤ 9 :=
  uvarintLoop_eq_concat 9 v (lt_of_lt_of_le v.toNat_lt (by decide))

/-! ## No value takes fewer bytes -/

private theorem uvarintLoop_length_le : ∀ (fuel n : Nat) (v : UInt64), v.toNat < 2 ^ (7 * (n + 1)) →
    (uvarintLoop fuel v).length ≤ n + 1 := by
  intro fuel
  induction fuel with
  | zero =>
    intro n v _
    exact Nat.succ_le_succ (Nat.zero_le n)
  | succ fuel ih =>
    intro n v hv
    rw [uvarintLoop_succ]
    split
    · rename_i hge
      have h128 := (ge_continuation_iff v).mp hge
      cases n with
      | zero => omega
      | succ n =>
        exact Nat.succ_le_succ (ih n _ (toNat_shiftRight_lt hv))
    · exact Nat.succ_le_succ (Nat.zero_le n)

private theorem toNat_or_shift_lt {x b : UInt64} {i : Nat} (hx : x.toNat < 2 ^ (7 * i))
    (hb : b.toNat < 128) (hi : i ≤ 9) :
    (x ||| (b <<< UInt64.ofNat (7 * i))).toNat < 2 ^ (7 * (i + 1)) := by
  have hshift : (UInt64.ofNat (7 * i)).toNat % 64 = 7 * i := by
    rw [UInt64.toNat_ofNat', Nat.mod_mod_of_dvd _ (by decide), Nat.mod_eq_of_lt (by omega)]
  have hpow := two_pow_seven_succ i
  rw [UInt64.toNat_or, UInt64.toNat_shiftLeft, hshift, Nat.shiftLeft_eq]
  refine Nat.or_lt_two_pow ?_ (lt_of_le_of_lt (Nat.mod_le _ _) ?_)
  · exact lt_of_lt_of_le hx (by omega)
  · rw [hpow]
    exact Nat.mul_lt_mul_of_pos_right hb (Nat.two_pow_pos _)

private theorem readUvarintLoop_bound : ∀ (buf : Bytes) (i n : Nat) (x v : UInt64),
    x.toNat < 2 ^ (7 * i) → readUvarintLoop i x buf = some (v, n) →
      v.toNat < 2 ^ (7 * n) ∧ 1 ≤ n ∧ n ≤ i + buf.length := by
  intro buf
  induction buf with
  | nil =>
    intro i n x v _ h
    cases h
  | cons b rest ih =>
    intro i n x v hx h
    rw [readUvarintLoop] at h
    split_ifs at h with h10 hlast h9
    · obtain ⟨rfl, rfl⟩ := Prod.mk.inj (Option.some.inj h)
      have hb : b.toUInt64.toNat < 128 := by
        rw [UInt8.toNat_toUInt64]
        exact hlast
      refine ⟨toNat_or_shift_lt hx hb (by omega), by omega, ?_⟩
      rw [List.length_cons]
      omega
    · have hb : (b &&& 0x7f).toUInt64.toNat < 128 := by
        rw [UInt8.toNat_toUInt64, UInt8.toNat_and]
        exact lt_of_le_of_lt Nat.and_le_right (by decide)
      obtain ⟨hv, hn, hle⟩ := ih (i + 1) n _ v (toNat_or_shift_lt hx hb (by omega)) h
      refine ⟨hv, hn, ?_⟩
      rw [List.length_cons]
      omega

/-- A value that is read has been written in at least as many bytes as `append_uvarint` takes
for it. -/
theorem uvarint_length_le_of_readUvarint {buf : Bytes} {v : UInt64} {n : Nat}
    (h : readUvarint buf = some (v, n)) : (uvarint v).length ≤ n ∧ n ≤ buf.length := by
  obtain ⟨hv, hn, hle⟩ := readUvarintLoop_bound buf 0 n 0 v (by simp) h
  obtain ⟨m, rfl⟩ : ∃ m, n = m + 1 := ⟨n - 1, by omega⟩
  exact ⟨uvarintLoop_length_le 9 m v hv, by omega⟩

/-- A value takes as many bytes as it has groups of seven bits. -/
theorem uvarint_length_le_iff {v : UInt64} {n : Nat} :
    (uvarint v).length ≤ n + 1 ↔ v.toNat < 2 ^ (7 * (n + 1)) := by
  constructor
  · intro h
    have hread : readUvarint (uvarint v ++ []) = some (v, (uvarint v).length) :=
      readUvarint_uvarint v []
    have hlt := (readUvarintLoop_bound _ 0 _ 0 v (by simp) hread).1
    exact lt_of_lt_of_le hlt (Nat.pow_le_pow_right (by decide) (by omega))
  · exact uvarintLoop_length_le 9 n v

end Roots.Wire

import Mathlib.Algebra.Group.Nat.Defs
import Mathlib.Data.List.Nodup
import Mathlib.Data.List.Range

/-!
# Roots.Lib.Counter

A `u64` counter that hands out names: the next value, then one more. It wraps, so **the
first `2 ^ 64` names are distinct** (`given_nodup`) and the one after them is the first again
(`turn_round`).
-/

namespace Roots.Counter

variable {first : UInt64} {m n : Nat}

/-- What a counter that stood at `first` has handed out after `n` turns. -/
def given (first : UInt64) (n : Nat) : List UInt64 :=
  (List.range n).map fun i => first + .ofNat i

theorem mem_given {x : UInt64} : x ∈ given first n ↔ ∃ i < n, first + .ofNat i = x := by
  simp [given]

theorem given_succ : given first (n + 1) = given first n ++ [first + .ofNat n] := by
  simp [given, List.range_succ]

theorem add_ofNat_succ : first + .ofNat (n + 1) = first + .ofNat n + 1 := by
  rw [UInt64.ofNat_add, UInt64.add_assoc]
  rfl

theorem one_add_ofNat : first + 1 + .ofNat n = first + .ofNat (n + 1) := by
  rw [Nat.add_comm n, UInt64.ofNat_add, ← UInt64.add_assoc]
  rfl

/-- A counter that is read in two goes. -/
theorem given_append : given first m ++ given (first + .ofNat m) n = given first (m + n) := by
  unfold given
  rw [List.range_add, List.map_append, List.map_map]
  congr 1
  refine List.map_congr_left fun i _ => ?_
  rw [Function.comp_apply, UInt64.ofNat_add, UInt64.add_assoc]

theorem given_cons : first :: given (first + 1) n = given first (n + 1) := by
  rw [Nat.add_comm, ← given_append]
  simp [given]

theorem ofNat_inj {i j : Nat} (hi : i < 2 ^ 64) (hj : j < 2 ^ 64)
    (h : first + .ofNat i = first + .ofNat j) : i = j := by
  have hij : UInt64.ofNat i = .ofNat j := (UInt64.add_right_inj first).mp h
  have htoNat := congrArg UInt64.toNat hij
  rwa [UInt64.toNat_ofNat_of_lt' hi, UInt64.toNat_ofNat_of_lt' hj] at htoNat

theorem given_nodup (h : n ≤ 2 ^ 64) : (given first n).Nodup := by
  refine List.Nodup.map_on (fun i hi j hj hij => ?_) List.nodup_range
  exact ofNat_inj (Nat.lt_of_lt_of_le (List.mem_range.mp hi) h)
    (Nat.lt_of_lt_of_le (List.mem_range.mp hj) h) hij

/-- The next value is larger, but after the last one. -/
theorem lt_add_one_iff {x : UInt64} : x < x + 1 ↔ x ≠ 0xffffffffffffffff := by
  have hx := x.toNat_lt
  rw [UInt64.lt_iff_toNat_lt, ne_eq, ← UInt64.toNat_inj, UInt64.toNat_add]
  simp only [UInt64.reduceToNat]
  omega

/-- One turn more than there are values. -/
theorem turn_round : first + .ofNat (2 ^ 64) = first := by
  have hzero : UInt64.ofNat (2 ^ 64) = 0 := rfl
  rw [hzero, UInt64.add_zero]

theorem given_not_nodup : ¬ (given first (2 ^ 64 + 1)).Nodup := by
  rw [given_succ, turn_round]
  intro h
  have hmem : first ∈ given first (2 ^ 64) := mem_given.mpr ⟨0, by decide, by simp⟩
  exact (List.nodup_append.mp h).2.2 first hmem first (List.mem_singleton_self _) rfl

/-- A counter that starts at one does not come to zero before it has used up its values. -/
theorem ne_zero_of_mem_given {x : UInt64} (h : n < 2 ^ 64) (hx : x ∈ given 1 n) : x ≠ 0 := by
  obtain ⟨i, hi, rfl⟩ := mem_given.mp hx
  intro hzero
  have hsucc : (0 : UInt64) + .ofNat (i + 1) = 0 + .ofNat 0 := by
    rw [add_ofNat_succ, UInt64.zero_add, UInt64.add_comm]
    exact hzero
  have := ofNat_inj (by omega) (by decide) hsucc
  omega

end Roots.Counter

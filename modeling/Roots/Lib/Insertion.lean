import Mathlib.Data.List.Sort

/-!
# Roots.Lib.Insertion

What insertion sort does with a relation that need not be transitive. If of any two elements one
may stand before the other, no two neighbours of the result are out of order
(`isChain_insertionSort`), and whatever the relation is, **two elements change places only if they
were out of order** (`pairwise_insertionSort_of`).

A list whose elements carry their places is the stable sort if it is sorted and keeps the places
of equals (`map_fst_eq_mergeSort`).
-/

namespace Insertion

variable {α : Type}

section

variable {r : α → α → Prop} [DecidableRel r]

theorem isChain_orderedInsert (htotal : ∀ a b, ¬ r a b → r b a) {l : List α} (h : l.IsChain r)
    (x : α) : (l.orderedInsert r x).IsChain r := by
  induction l with
  | nil => exact .singleton x
  | cons y l ih =>
    by_cases hxy : r x y
    · rw [List.orderedInsert_cons_of_le r l hxy]
      exact .cons_cons hxy h
    · rw [List.orderedInsert_of_not_le r l hxy]
      -- What follows `y` is `x`, or what followed it before.
      cases l with
      | nil => exact .cons_cons (htotal x y hxy) (.singleton x)
      | cons z l =>
        have htail := ih (List.isChain_cons_cons.mp h).2
        by_cases hxz : r x z
        · rw [List.orderedInsert_cons_of_le r l hxz] at htail ⊢
          exact .cons_cons (htotal x y hxy) htail
        · rw [List.orderedInsert_of_not_le r l hxz] at htail ⊢
          exact .cons_cons (List.isChain_cons_cons.mp h).1 htail

theorem isChain_insertionSort (htotal : ∀ a b, ¬ r a b → r b a) (l : List α) :
    (l.insertionSort r).IsChain r := by
  induction l with
  | nil => exact .nil
  | cons x l ih => exact isChain_orderedInsert htotal ih x

/-- If the elements stood in the order `before`, those that do not any more were out of order. -/
theorem pairwise_insertionSort_of {before : α → α → Prop} {l : List α} (h : l.Pairwise before) :
    (l.insertionSort r).Pairwise fun a b => before a b ∨ before b a ∧ ¬ r b a := by
  have hinsert : ∀ (x : α) (l : List α), (∀ y ∈ l, before x y) →
      (l.Pairwise fun a b => before a b ∨ before b a ∧ ¬ r b a) →
      (l.orderedInsert r x).Pairwise fun a b => before a b ∨ before b a ∧ ¬ r b a := by
    intro x l
    induction l with
    | nil => exact fun _ _ => List.pairwise_singleton _ x
    | cons y l ih =>
      intro hx hl
      by_cases hxy : r x y
      · rw [List.orderedInsert_cons_of_le r l hxy]
        exact List.pairwise_cons.mpr ⟨fun z hz => .inl (hx z hz), hl⟩
      · rw [List.orderedInsert_of_not_le r l hxy]
        obtain ⟨hy, hl⟩ := List.pairwise_cons.mp hl
        refine List.pairwise_cons.mpr ⟨fun z hz => ?_, ih (fun z hz => hx z (.tail _ hz)) hl⟩
        rcases List.mem_cons.mp ((List.perm_orderedInsert r x l).mem_iff.mp hz) with rfl | hz
        · exact .inr ⟨hx y List.mem_cons_self, hxy⟩
        · exact hy z hz
  induction l with
  | nil => exact .nil
  | cons x l ih =>
    obtain ⟨hx, hl⟩ := List.pairwise_cons.mp h
    exact hinsert x _ (fun y hy => hx y ((List.mem_insertionSort r).mp hy)) (ih hl)

end

/-- The stable sort is the only list with the elements and their places that is sorted and has
equals in the order of their places. -/
theorem map_fst_eq_mergeSort {le : α → α → Bool} {l : List α} {tagged : List (α × Nat)}
    (htrans : ∀ a b c, le a b → le b c → le a c) (htotal : ∀ a b, le a b || le b a)
    (hperm : tagged.Perm l.zipIdx) (hsorted : tagged.Pairwise fun p q => le p.1 q.1)
    (hplaces : tagged.Pairwise fun p q => p.2 < q.2 ∨ le q.1 p.1 = false) :
    tagged.map Prod.fst = l.mergeSort le := by
  have hlex : tagged.Pairwise fun p q => List.zipIdxLE le p q := by
    refine hsorted.imp₂ (fun p q hle hplace => ?_) hplaces
    simp only [List.zipIdxLE, hle, if_true]
    rcases hplace with hlt | hnot
    · split
      · exact decide_eq_true hlt.le
      · rfl
    · simp [hnot]
  have hmerge := List.pairwise_mergeSort (List.zipIdxLE_trans htrans) (List.zipIdxLE_total htotal)
    l.zipIdx
  have heq : tagged = l.zipIdx.mergeSort (List.zipIdxLE le) := by
    refine List.Perm.eq_of_pairwise (fun p q hp hq hpq hqp => ?_) hlex hmerge
      (hperm.trans (List.mergeSort_perm _ _).symm)
    have hplace : p.2 = q.2 := by
      simp only [List.zipIdxLE] at hpq hqp
      split_ifs at hpq hqp with h h'
      exact Nat.le_antisymm (of_decide_eq_true hpq) (of_decide_eq_true hqp)
    have hgetp := List.mem_zipIdx_iff_getElem?.mp (hperm.mem_iff.mp hp)
    have hgetq := List.mem_zipIdx_iff_getElem?.mp ((List.mergeSort_perm _ _).mem_iff.mp hq)
    rw [hplace, hgetq] at hgetp
    exact Prod.ext (Option.some.inj hgetp).symm hplace
  rw [heq]
  exact List.mergeSort_zipIdx

end Insertion

import Mathlib.Data.List.Destutter
import Mathlib.Data.List.Sort

/-!
# Roots.Lib.Destutter

What is left of a list when each run of equal elements is cut to one. No element is lost
(`mem_destutter_ne`), and a list with equal elements in one place each is left with distinct ones
(`nodup_destutter_ne`), as a sorted one is. But an element that comes back after another one is
kept twice: **every list in which no two neighbours are equal and that could be picked from the
whole can be picked from what is left** (`sublist_destutter_ne`).
-/

namespace Destutter

variable {α : Type} [DecidableEq α]

theorem sublist_destutter'_ne {s l : List α} {a : α} (hs : s.IsChain (· ≠ ·))
    (h : s.Sublist (a :: l)) : s.Sublist (l.destutter' (· ≠ ·) a) := by
  induction l generalizing a s with
  | nil => exact h
  | cons b l ih =>
    by_cases hab : a ≠ b
    · rw [List.destutter'_cons_pos l hab]
      cases h with
      | cons _ h => exact (ih hs h).cons a
      | cons_cons _ h => exact (ih hs.tail h).cons_cons a
    · obtain rfl := not_not.mp hab
      rw [List.destutter'_cons_neg l hab]
      -- Of the two `a`s in front a chain takes one at most.
      cases h with
      | cons _ h => exact ih hs h
      | cons_cons _ h =>
        cases h with
        | cons _ h => exact ih hs (h.cons_cons a)
        | cons_cons _ h => exact absurd rfl (List.isChain_cons_cons.mp hs).1

theorem sublist_destutter_ne {s l : List α} (hs : s.IsChain (· ≠ ·)) (h : s.Sublist l) :
    s.Sublist (l.destutter (· ≠ ·)) := by
  cases l with
  | nil => exact h
  | cons a l => exact sublist_destutter'_ne hs h

theorem mem_destutter_ne {l : List α} {a : α} : a ∈ l.destutter (· ≠ ·) ↔ a ∈ l := by
  constructor
  · exact fun h => (List.destutter_sublist _ l).subset h
  · intro h
    have hsub := sublist_destutter_ne (.singleton a) (List.singleton_sublist.mpr h)
    exact List.singleton_sublist.mp hsub

theorem nodup_destutter_ne {r : α → α → Prop} (hantisymm : ∀ a b, r a b → r b a → a = b)
    {l : List α} (h : l.Pairwise r) : (l.destutter (· ≠ ·)).Nodup := by
  have hsorted := h.sublist (List.destutter_sublist (· ≠ ·) l)
  have hchain := List.isChain_destutter (· ≠ ·) l
  generalize l.destutter (· ≠ ·) = d at hsorted hchain
  induction d with
  | nil => exact .nil
  | cons a d ih =>
    obtain ⟨hhead, htail⟩ := List.pairwise_cons.mp hsorted
    refine List.nodup_cons.mpr ⟨?_, ih htail hchain.tail⟩
    cases d with
    | nil => exact List.not_mem_nil
    | cons b d =>
      -- Another `a` could not stand behind `b`, which is not before `a`.
      intro hmem
      have hab := (List.isChain_cons_cons.mp hchain).1
      rcases List.mem_cons.mp hmem with heq | hmem
      · exact hab heq
      · exact hab (hantisymm a b (hhead b List.mem_cons_self)
          ((List.pairwise_cons.mp htail).1 a hmem))

end Destutter

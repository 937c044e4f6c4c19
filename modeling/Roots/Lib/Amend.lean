import Mathlib.Data.List.Nodup

/-!
# Roots.Lib.Amend

A table of rows in a list, each row with a key of its own, and the one update such tables
are written with: **the first row that matches is replaced or taken out** (`amend`).
-/

namespace Roots

variable {α κ : Type} {p : α → Bool} {f : α → Option α} {l : List α}

/-- The first row that matches becomes what `f` makes of it, or goes. -/
def amend (p : α → Bool) (f : α → Option α) : List α → List α
  | [] => []
  | a :: l => if p a then (f a).toList ++ l else a :: amend p f l

theorem amend_cons (a : α) (l : List α) :
    amend p f (a :: l) = if p a then (f a).toList ++ l else a :: amend p f l := rfl

theorem amend_of_find?_eq_none (h : l.find? p = none) : amend p f l = l := by
  rw [List.find?_eq_none] at h
  induction l with
  | nil => rfl
  | cons a l ih =>
    rw [amend_cons, if_neg (h a (List.mem_cons_self ..)),
      ih fun b hb => h b (List.mem_cons_of_mem a hb)]

/-- A row of an amended table was there before or is the new one. -/
theorem mem_amend {b : α} (h : b ∈ amend p f l) :
    b ∈ l ∨ ∃ a, l.find? p = some a ∧ f a = some b := by
  induction l with
  | nil => exact .inl h
  | cons a l ih =>
    rw [amend_cons] at h
    split at h
    · rename_i hp
      rcases List.mem_append.mp h with h | h
      · exact .inr ⟨a, List.find?_cons_of_pos hp, Option.mem_toList.mp h⟩
      · exact .inl (List.mem_cons_of_mem a h)
    · rename_i hp
      rcases List.mem_cons.mp h with rfl | h
      · exact .inl (List.mem_cons_self ..)
      · refine (ih h).imp (List.mem_cons_of_mem a) fun ⟨a', hfind, hf⟩ => ⟨a', ?_, hf⟩
        rw [List.find?_cons_of_neg hp, hfind]

/-- The other rows stay. -/
theorem mem_amend_of_mem {b : α} (h : b ∈ l) (hne : l.find? p ≠ some b) : b ∈ amend p f l := by
  induction l with
  | nil => exact h
  | cons a l ih =>
    rw [amend_cons]
    split
    · rename_i hp
      rw [List.find?_cons_of_pos hp] at hne
      have hb := (List.mem_cons.mp h).resolve_left fun heq => hne (heq ▸ rfl)
      exact List.mem_append_right _ hb
    · rename_i hp
      rw [List.find?_cons_of_neg hp] at hne
      rcases List.mem_cons.mp h with rfl | h
      · exact List.mem_cons_self ..
      · exact List.mem_cons_of_mem a (ih h hne)

/-- The new row is there. -/
theorem mem_amend_of_find? {a b : α} (h : l.find? p = some a) (hf : f a = some b) :
    b ∈ amend p f l := by
  induction l with
  | nil => cases h
  | cons a' l ih =>
    rw [amend_cons]
    split
    · rename_i hp
      rw [List.find?_cons_of_pos hp, Option.some.injEq] at h
      rw [h, hf]
      exact List.mem_cons_self ..
    · rename_i hp
      rw [List.find?_cons_of_neg hp] at h
      exact List.mem_cons_of_mem a' (ih h)

section Keys

variable {key : α → κ}

/-- An update that keeps the key of the row leaves the keys in order. -/
theorem map_amend_sublist (h : ∀ a b, f a = some b → key b = key a) :
    ((amend p f l).map key).Sublist (l.map key) := by
  induction l with
  | nil => exact .refl _
  | cons a l ih =>
    rw [amend_cons]
    split
    · cases hf : f a with
      | none => exact List.sublist_cons_self ..
      | some b =>
        rw [Option.toList_some, List.singleton_append, List.map_cons, List.map_cons, h a b hf]
    · exact ih.cons_cons _

/-- The row that was amended is the only one with its key. -/
theorem eq_of_mem_amend (hkeys : (l.map key).Nodup) {a b : α} (hfind : l.find? p = some a)
    (hb : b ∈ amend p f l) (hkey : key b = key a) : f a = some b := by
  induction l with
  | nil => cases hfind
  | cons a' l ih =>
    obtain ⟨hfresh, hkeys⟩ := List.nodup_cons.mp hkeys
    rw [amend_cons] at hb
    split at hb
    · rename_i hp
      rw [List.find?_cons_of_pos hp, Option.some.injEq] at hfind
      subst hfind
      rcases List.mem_append.mp hb with hb | hb
      · exact Option.mem_toList.mp hb
      · exact absurd (hkey ▸ List.mem_map_of_mem hb) hfresh
    · rename_i hp
      rw [List.find?_cons_of_neg hp] at hfind
      rcases List.mem_cons.mp hb with rfl | hb
      · exact absurd (hkey ▸ List.mem_map_of_mem (List.mem_of_find?_eq_some hfind)) hfresh
      · exact ih hkeys hfind hb

end Keys

end Roots

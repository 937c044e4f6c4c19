import Mathlib.Data.List.Basic

/-!
# Roots.Lib.Delimit

Codes that show where they end. Of a text that begins with the code of a value, the value and what
follows it are known (`Delimits`), so such codes can be written one after the other and taken off
again, without anything in between (`Delimits.flatMap_injective`).
-/

variable {α γ : Type}

/-- The code of a value and what follows it are known from the whole. -/
def Delimits (code : α → List γ) : Prop :=
  ∀ ⦃a b : α⦄ ⦃s t : List γ⦄, code a ++ s = code b ++ t → a = b ∧ s = t

namespace Delimits

variable {f : α → List γ}

theorem injective (hf : Delimits f) : Function.Injective f := by
  intro a b h
  exact (hf (congrArg (· ++ []) h)).1

/-- Codes of one length are told apart by it. -/
theorem of_length {n : Nat} (hlen : ∀ a, (f a).length = n) (hinj : Function.Injective f) :
    Delimits f := by
  intro a b s t h
  obtain ⟨hcode, hrest⟩ := List.append_inj h (by rw [hlen, hlen])
  exact ⟨hinj hcode, hrest⟩

/-- A reader finds the value and the length of its code. -/
theorem of_read (read : List γ → Option (α × Nat))
    (hread : ∀ a s, read (f a ++ s) = some (a, (f a).length)) : Delimits f := by
  intro a b s t h
  have heq : some (a, (f a).length) = some (b, (f b).length) := by
    rw [← hread a s, ← hread b t, h]
  obtain ⟨hval, hlen⟩ := Prod.mk.inj (Option.some.inj heq)
  exact ⟨hval, (List.append_inj h hlen).2⟩

/-- One code after the other, to the end of the text. -/
theorem flatMap_injective (hf : Delimits f) (hne : ∀ a, f a ≠ []) :
    Function.Injective fun l : List α => l.flatMap f := by
  intro l
  induction l with
  | nil =>
    intro m h
    cases m with
    | nil => rfl
    | cons b m => exact absurd (List.append_eq_nil_iff.mp h.symm).1 (hne b)
  | cons a l ih =>
    intro m h
    cases m with
    | nil => exact absurd (List.append_eq_nil_iff.mp h).1 (hne a)
    | cons b m =>
      obtain ⟨rfl, hrest⟩ := hf h
      rw [ih hrest]

end Delimits

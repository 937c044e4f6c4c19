import Mathlib.Data.List.Perm.Basic
import Mathlib.Data.List.Count

/-!
# Roots.Lib.Settle

Answers that came in are matched with the questions that wait for them. The questions are gone
through in order: one that is dead is closed, one that finds an answer takes **the first that
fits**, and the others go on waiting. No answer is lost and none is used twice (`handOut_answers`),
and nothing that is left fits a question that waits (`handOut_still`).
-/

/-- What becomes of the questions and of the answers. -/
structure Settlement (Q A : Type) where
  /-- The questions that are closed, with the answer each of them got, if it got one. -/
  done : List (Q × Option A)
  /-- The questions that wait. -/
  still : List Q
  /-- The answers that nobody took. -/
  rest : List A

namespace Settlement

variable {Q A B : Type}

def close (s : Settlement Q A) (q : Q) (a : Option A) : Settlement Q A :=
  { s with done := (q, a) :: s.done }

def keep (s : Settlement Q A) (q : Q) : Settlement Q A := { s with still := q :: s.still }

/-- The answers that were taken, with the questions that took them. -/
def handed (s : Settlement Q A) : List (Q × A) :=
  s.done.filterMap fun x => x.2.map fun a => (x.1, a)

def map (f : A → B) (s : Settlement Q A) : Settlement Q B where
  done := s.done.map fun x => (x.1, x.2.map f)
  still := s.still
  rest := s.rest.map f

end Settlement

section

variable {Q A B C : Type} (dead : Q → Bool) (fits : Q → A → Bool)

def handOut : List Q → List A → Settlement Q A
  | [], as => ⟨[], [], as⟩
  | q :: qs, as =>
      if dead q then (handOut qs as).close q none
      else
        match as.find? (fits q) with
        | some a => (handOut qs (as.eraseP (fits q))).close q (some a)
        | none => (handOut qs as).keep q

variable {dead fits}

variable (dead fits) in
/-- The three things that can become of the first question. -/
theorem handOut_cons (q : Q) (qs : List Q) (as : List A) :
    (dead q = true ∧ handOut dead fits (q :: qs) as = (handOut dead fits qs as).close q none) ∨
      (∃ a, dead q = false ∧ as.find? (fits q) = some a ∧ handOut dead fits (q :: qs) as =
        (handOut dead fits qs (as.eraseP (fits q))).close q (some a)) ∨
      (dead q = false ∧ (∀ a ∈ as, fits q a = false) ∧
        handOut dead fits (q :: qs) as = (handOut dead fits qs as).keep q) := by
  simp only [handOut]
  split
  · exact .inl ⟨‹_›, rfl⟩
  · have hlive : dead q = false := Bool.eq_false_iff.mpr ‹_›
    split
    · exact .inr (.inl ⟨_, hlive, ‹_›, rfl⟩)
    · rename_i hnone
      refine .inr (.inr ⟨hlive, fun a ha => ?_, rfl⟩)
      exact Bool.eq_false_iff.mpr (List.find?_eq_none.mp hnone a ha)

/-- An answer that is found is the one that is taken out. -/
theorem perm_cons_eraseP {p : A → Bool} {a : A} {as : List A} (h : as.find? p = some a) :
    as.Perm (a :: as.eraseP p) := by
  induction as with
  | nil => cases h
  | cons b as ih =>
    by_cases hb : p b = true
    · rw [List.find?_cons_of_pos hb, Option.some_inj] at h
      rw [List.eraseP_cons_of_pos hb, h]
    · rw [List.find?_cons_of_neg hb] at h
      rw [List.eraseP_cons_of_neg hb]
      exact ((ih h).cons b).trans (.swap a b _)

theorem handOut_rest_sublist (qs : List Q) (as : List A) :
    (handOut dead fits qs as).rest.Sublist as := by
  induction qs generalizing as with
  | nil => exact .refl as
  | cons q qs ih =>
    obtain ⟨-, h⟩ | ⟨a, -, -, h⟩ | ⟨-, -, h⟩ := handOut_cons dead fits q qs as
    · rw [h]
      exact ih as
    · rw [h]
      exact (ih _).trans List.eraseP_sublist
    · rw [h]
      exact ih as

/-- Every answer is either taken, by one question, or left. -/
theorem handOut_answers (qs : List Q) (as : List A) :
    ((handOut dead fits qs as).handed.map Prod.snd ++ (handOut dead fits qs as).rest).Perm as := by
  induction qs generalizing as with
  | nil => exact .refl as
  | cons q qs ih =>
    obtain ⟨-, h⟩ | ⟨a, -, hfind, h⟩ | ⟨-, -, h⟩ :=
      handOut_cons dead fits q qs as
    · rw [h]
      exact ih as
    · rw [h]
      exact ((ih (as.eraseP (fits q))).cons a).trans (perm_cons_eraseP hfind).symm
    · rw [h]
      exact ih as

/-- An answer goes to a question that is alive and that it fits. -/
theorem handOut_handed {qs : List Q} {as : List A} {x : Q × A}
    (hx : x ∈ (handOut dead fits qs as).handed) :
    x.1 ∈ qs ∧ x.2 ∈ as ∧ dead x.1 = false ∧ fits x.1 x.2 = true := by
  induction qs generalizing as with
  | nil => cases hx
  | cons q qs ih =>
    obtain ⟨-, h⟩ | ⟨a, hlive, hfind, h⟩ | ⟨-, -, h⟩ :=
      handOut_cons dead fits q qs as
    · rw [h] at hx
      obtain ⟨hq, hrest⟩ := ih hx
      exact ⟨List.mem_cons_of_mem q hq, hrest⟩
    · rw [h] at hx
      rcases List.mem_cons.mp (show x ∈ (q, a) :: (handOut dead fits qs _).handed from hx)
        with rfl | hx
      · exact ⟨List.mem_cons_self, List.mem_of_find?_eq_some hfind, hlive,
          List.find?_some hfind⟩
      · obtain ⟨hq, ha, hrest⟩ := ih hx
        exact ⟨List.mem_cons_of_mem q hq, List.mem_of_mem_eraseP ha, hrest⟩
    · rw [h] at hx
      obtain ⟨hq, hrest⟩ := ih hx
      exact ⟨List.mem_cons_of_mem q hq, hrest⟩

/-- A question that waits is alive, and nothing that is left fits it. -/
theorem handOut_still {qs : List Q} {as : List A} {q : Q}
    (hq : q ∈ (handOut dead fits qs as).still) :
    q ∈ qs ∧ dead q = false ∧ ∀ a ∈ (handOut dead fits qs as).rest, fits q a = false := by
  induction qs generalizing as with
  | nil => cases hq
  | cons q' qs ih =>
    obtain ⟨-, h⟩ | ⟨a, -, -, h⟩ | ⟨hlive, hnone, h⟩ :=
      handOut_cons dead fits q' qs as
    · rw [h] at hq ⊢
      obtain ⟨hmem, hrest⟩ := ih hq
      exact ⟨List.mem_cons_of_mem q' hmem, hrest⟩
    · rw [h] at hq ⊢
      obtain ⟨hmem, hrest⟩ := ih hq
      exact ⟨List.mem_cons_of_mem q' hmem, hrest⟩
    · rw [h] at hq ⊢
      rcases List.mem_cons.mp (show q ∈ q' :: (handOut dead fits qs as).still from hq) with rfl | hq
      · exact ⟨List.mem_cons_self, hlive,
          fun a ha => hnone a ((handOut_rest_sublist qs as).subset ha)⟩
      · obtain ⟨hmem, hrest⟩ := ih hq
        exact ⟨List.mem_cons_of_mem q' hmem, hrest⟩

/-- If an early answer fits a question that is alive, then an early answer is taken: the first such
question finds them all in place. -/
theorem handOut_takes_early {qs : List Q} {early late : List A}
    (h : ∃ q ∈ qs, dead q = false ∧ ∃ a ∈ early, fits q a = true) :
    ∃ x ∈ (handOut dead fits qs (early ++ late)).handed, x.2 ∈ early := by
  induction qs generalizing late with
  | nil =>
    obtain ⟨q, hq, -⟩ := h
    cases hq
  | cons q' qs ih =>
    obtain ⟨q, hq, hlive, a, ha, hfits⟩ := h
    by_cases hfirst : dead q' = false ∧ ∃ a ∈ early, fits q' a = true
    · obtain ⟨hlive', b, hb, hfits'⟩ := hfirst
      obtain ⟨c, hc⟩ := Option.isSome_iff_exists.mp (List.find?_isSome.mpr ⟨b, hb, hfits'⟩)
      have hfind : (early ++ late).find? (fits q') = some c := by
        rw [List.find?_append, hc, Option.some_or]
      refine ⟨(q', c), ?_, List.mem_of_find?_eq_some hc⟩
      simp only [handOut, hlive', hfind, Bool.false_eq_true, if_false]
      exact List.mem_cons_self
    · -- the first question takes nothing of the early ones
      have hlater : ∃ q ∈ qs, dead q = false ∧ ∃ a ∈ early, fits q a = true := by
        rcases List.mem_cons.mp hq with rfl | hq
        · exact absurd ⟨hlive, a, ha, hfits⟩ hfirst
        · exact ⟨q, hq, hlive, a, ha, hfits⟩
      obtain ⟨-, hrun⟩ | ⟨c, hlive', -, hrun⟩ | ⟨-, -, hrun⟩ :=
        handOut_cons dead fits q' qs (early ++ late)
      · rw [hrun]
        exact ih hlater
      · have hnone : ∀ a ∈ early, ¬ fits q' a = true :=
          fun a ha hfits => hfirst ⟨hlive', a, ha, hfits⟩
        rw [hrun, List.eraseP_append_right _ hnone]
        obtain ⟨x, hx, hearly⟩ := @ih (late.eraseP (fits q')) hlater
        exact ⟨x, List.mem_cons_of_mem _ hx, hearly⟩
      · rw [hrun]
        exact ih hlater

/-- A question that is alive takes an answer that fits it, if no question before it can take that
answer and no answer before it fits the question. -/
theorem handOut_takes {q : Q} {a : A} {before after : List Q} {as : List A} (hlive : dead q = false)
    (hfits : fits q a = true) (has : ∀ b ∈ as, fits q b = false)
    (hbefore : ∀ q' ∈ before, fits q' a = false) :
    (q, some a) ∈ (handOut dead fits (before ++ q :: after) (as ++ [a])).done := by
  induction before generalizing as with
  | nil =>
    have hfind : (as ++ [a]).find? (fits q) = some a := by
      rw [List.find?_append, List.find?_eq_none.mpr fun b hb => Bool.eq_false_iff.mp (has b hb),
        Option.none_or, List.find?_cons_of_pos hfits]
    simp only [List.nil_append, handOut, hlive, hfind, Bool.false_eq_true, if_false]
    exact List.mem_cons_self
  | cons q' before ih =>
    have hrest : ∀ q ∈ before, fits q a = false := fun q hq => hbefore q (List.mem_cons_of_mem _ hq)
    obtain ⟨-, h⟩ | ⟨c, -, hfind, h⟩ | ⟨-, -, h⟩ :=
      handOut_cons dead fits q' (before ++ q :: after) (as ++ [a])
    · rw [List.cons_append, h]
      exact List.mem_cons_of_mem _ (ih has hrest)
    · have hskip := Bool.eq_false_iff.mp (hbefore q' List.mem_cons_self)
      have htook : ∃ b ∈ as, fits q' b = true := by
        rcases List.mem_append.mp (List.mem_of_find?_eq_some hfind) with hc | hc
        · exact ⟨c, hc, List.find?_some hfind⟩
        · rw [List.mem_singleton.mp hc] at hfind
          exact absurd (List.find?_some hfind) hskip
      obtain ⟨b, hb, hfitsb⟩ := htook
      rw [List.cons_append, h, List.eraseP_append_left hfitsb _ hb]
      exact List.mem_cons_of_mem _ (ih (fun b hb => has b (List.mem_of_mem_eraseP hb)) hrest)
    · rw [List.cons_append, h]
      exact ih has hrest

/-- What the answers carry besides what the questions look at does not matter. -/
theorem handOut_map {fits' : Q → B → Bool} (f : A → B) (h : ∀ q a, fits' q (f a) = fits q a)
    (qs : List Q) (as : List A) :
    handOut dead fits' qs (as.map f) = (handOut dead fits qs as).map f := by
  have hcomp : ∀ q, fits' q ∘ f = fits q := fun q => funext (h q)
  induction qs generalizing as with
  | nil => rfl
  | cons q qs ih =>
    simp only [handOut, List.find?_map, List.eraseP_map, hcomp]
    cases dead q with
    | true =>
      simp only [if_true, ih]
      rfl
    | false =>
      simp only [Bool.false_eq_true, if_false]
      cases as.find? (fits q) with
      | none =>
        simp only [Option.map_none, ih]
        rfl
      | some a =>
        simp only [Option.map_some, ih]
        rfl

/-! ## Kinds -/

section Kind

variable [DecidableEq C] {asks : Q → C} {kind : A → C}

variable (dead) in
/-- Where a question takes the answers of one kind, what is left of a kind is what the questions
that are alive do not use up. -/
theorem handOut_countP (h : ∀ q a, fits q a = true ↔ kind a = asks q) (c : C) (qs : List Q)
    (as : List A) :
    (handOut dead fits qs as).rest.countP (kind · = c) =
      as.countP (kind · = c) - qs.countP fun q => !dead q && asks q = c := by
  induction qs generalizing as with
  | nil => exact (Nat.sub_zero _).symm
  | cons q qs ih =>
    obtain ⟨hdead, hrun⟩ | ⟨a, hlive, hfind, hrun⟩ | ⟨hlive, hnone, hrun⟩ :=
      handOut_cons dead fits q qs as
    · rw [hrun, List.countP_cons_of_neg (by simp [hdead])]
      exact ih as
    · have hkind := (h q a).mp (List.find?_some hfind)
      have hperm := (perm_cons_eraseP hfind).countP_eq (kind · = c)
      rw [hrun]
      refine (ih _).trans ?_
      simp only [List.countP_cons, hlive, hkind] at hperm ⊢
      by_cases hc : asks q = c <;> simp [hc] at hperm ⊢ <;> omega
    · rw [hrun]
      refine (ih as).trans ?_
      by_cases hc : asks q = c
      · have hzero : as.countP (kind · = c) = 0 := List.countP_eq_zero.mpr fun a ha hk => by
          have hfits := (h q a).mpr ((of_decide_eq_true hk).trans hc.symm)
          rw [hnone a ha] at hfits
          cases hfits
        rw [hzero, Nat.zero_sub, Nat.zero_sub]
      · rw [List.countP_cons_of_neg (by simp [hc])]

/-- **Nothing is left if and only if there are enough questions for every kind.** -/
theorem handOut_rest_eq_nil_iff (h : ∀ q a, fits q a = true ↔ kind a = asks q) (qs : List Q)
    (as : List A) :
    (handOut dead fits qs as).rest = [] ↔
      ∀ c, as.countP (kind · = c) ≤ qs.countP fun q => !dead q && asks q = c := by
  constructor
  · intro hnil c
    have hcount := handOut_countP dead h c qs as
    rw [hnil, List.countP_nil] at hcount
    omega
  · intro hle
    refine List.eq_nil_iff_forall_not_mem.mpr fun a ha => ?_
    have hcount := handOut_countP dead h (kind a) qs as
    have hpos : 0 < (handOut dead fits qs as).rest.countP (kind · = kind a) :=
      List.countP_pos_iff.mpr ⟨a, ha, decide_eq_true rfl⟩
    have hle := hle (kind a)
    omega

end Kind

end

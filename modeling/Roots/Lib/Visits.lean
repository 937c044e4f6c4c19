import Mathlib.Algebra.BigOperators.Group.List.Basic
import Mathlib.Algebra.GroupWithZero.Nat
import Roots.Lib.Prog

/-!
# Roots.Lib.Visits

When a program fails, said by what it comes by. A program is given the list of its **visits**: what
it met on the way, in order, up to where it stopped. `Meets` says that it fails where one of the
visits is fatal and **only there or late**, in a state in which all bets are off. The visits of a
sequence are those of its first part and, where that part went through, those of the rest; a loop
is the same for each of its turns.

The same lists account for a stock: `Spends` says that what a program that comes back has taken
off it is what its visits cost.
-/

namespace Prog

variable {σ ε α β γ : Type}

/-- The program ends in a bad way. -/
def Fails (bad : ε → Prop) (m : Prog σ ε α) (s : σ) : Prop := ∃ e, (m s).1 = .error e ∧ bad e

theorem fails_iff_of_error {bad : ε → Prop} {m : Prog σ ε α} {s : σ} {e : ε}
    (h : (m s).1 = .error e) : Fails bad m s ↔ bad e := by
  rw [Fails, h]
  constructor
  · intro ⟨e', he', hbad⟩
    cases he'
    exact hbad
  · intro hbad
    exact ⟨e, rfl, hbad⟩

theorem not_fails_of_ok {bad : ε → Prop} {m : Prog σ ε α} {s : σ} {a : α}
    (h : (m s).1 = .ok a) : ¬ Fails bad m s := by
  intro ⟨e, he, _⟩
  rw [h] at he
  cases he

/-- What comes after a program, if it went through. -/
def onward (r : Except ε α × σ) (next : α → σ → List γ) : List γ :=
  match r with
  | (.ok a, s) => next a s
  | (.error _, _) => []

theorem onward_nil (r : Except ε α × σ) : onward r (fun _ _ => ([] : List γ)) = [] := by
  obtain ⟨e | a, s⟩ := r <;> rfl

/-- Run `f` on the elements of a list in order, as long as it says so. -/
def forWhile (goes : β → Bool) (f : α → Prog σ ε β) : List α → Prog σ ε Unit
  | [] => pure ()
  | a :: l => f a >>= fun b => if goes b then forWhile goes f l else pure ()

/-- The visits of a loop, where `see` has those of one turn. -/
def visits (goes : β → Bool) (f : α → Prog σ ε β) (see : α → σ → List γ) : List α → σ → List γ
  | [], _ => []
  | a :: l, s =>
      see a s ++ onward (f a s) fun b s' => if goes b then visits goes f see l s' else []

theorem forEach_eq_forWhile (f : α → Prog σ ε Unit) (l : List α) :
    forEach l f = forWhile (fun _ => true) f l := by
  induction l with
  | nil => rfl
  | cons a l ih =>
    rw [forEach, forWhile, ih]
    rfl

/-- The program fails where a visit is fatal, and only there or late, in a state where it may. It
keeps an invariant. -/
structure Meets (I : σ → Prop) (bad : ε → Prop) (late : σ → Prop) (fatal : γ → Prop)
    (m : Prog σ ε α) (s : σ) (seen : List γ) : Prop where
  fails : ∀ v ∈ seen, fatal v → Fails bad m s
  blames : Fails bad m s → (∃ v ∈ seen, fatal v) ∨ late (m s).2
  keeps : I (m s).2

namespace Meets

variable {I : σ → Prop} {bad : ε → Prop} {late : σ → Prop} {fatal : γ → Prop} {s : σ}
  {seen : List γ}

/-- Where a program is not late, it fails if and only if a visit is fatal. -/
theorem fails_iff {m : Prog σ ε α} (h : Meets I bad late fatal m s seen) (hlate : ¬ late (m s).2) :
    Fails bad m s ↔ ∃ v ∈ seen, fatal v :=
  ⟨fun hfails => (h.blames hfails).resolve_right hlate,
    fun ⟨v, hv, hfatal⟩ => h.fails v hv hfatal⟩

/-- A program that leaves the same state and fails where another one does. -/
theorem transfer {m : Prog σ ε α} {m₁ : Prog σ ε β} (h : Meets I bad late fatal m s seen)
    (hstate : (m₁ s).2 = (m s).2) (hfails : Fails bad m₁ s ↔ Fails bad m s) :
    Meets I bad late fatal m₁ s seen := by
  refine ⟨fun v hv hfatal => hfails.mpr (h.fails v hv hfatal), ?_, ?_⟩
  · rw [hstate, hfails]
    exact h.blames
  · rw [hstate]
    exact h.keeps

/-- A program that does not fail unless it is late. -/
theorem quiet {m : Prog σ ε α} (h : Fails bad m s → late (m s).2) (hs : I (m s).2) :
    Meets I bad late fatal m s [] where
  fails _ hv := absurd hv List.not_mem_nil
  blames hfails := .inr (h hfails)
  keeps := hs

theorem pure (a : α) (hs : I s) : Meets I bad late fatal (Pure.pure a : Prog σ ε α) s [] :=
  quiet (fun hfails => absurd hfails (not_fails_of_ok rfl)) hs

theorem gets_bind {g : σ → α} {f : α → Prog σ ε β} (h : Meets I bad late fatal (f (g s)) s seen) :
    Meets I bad late fatal (gets g >>= f) s seen := ⟨h.fails, h.blames, h.keeps⟩

/-- A program with one visit. -/
theorem one {m : Prog σ ε α} {v : γ} (hfails : fatal v → Fails bad m s)
    (hblames : Fails bad m s → fatal v ∨ late (m s).2) (hs : I (m s).2) :
    Meets I bad late fatal m s [v] where
  fails v' hv' := by
    cases List.mem_singleton.mp hv'
    exact hfails
  blames h := (hblames h).imp (fun hfatal => ⟨v, List.mem_singleton_self v, hfatal⟩) id
  keeps := hs

theorem bind {m : Prog σ ε α} {f : α → Prog σ ε β} {next : α → σ → List γ}
    (hm : Meets I bad late fatal m s seen)
    (hf : ∀ a s', m s = (.ok a, s') → I s' → Meets I bad late fatal (f a) s' (next a s')) :
    Meets I bad late fatal (m >>= f) s (seen ++ onward (m s) next) := by
  obtain ⟨r, hr⟩ : ∃ r, m s = r := ⟨_, rfl⟩
  have hkeeps := hm.keeps
  have hblames := hm.blames
  obtain ⟨e | a, s'⟩ := r
  · -- The rest is not reached.
    have hrun : (m >>= f) s = (.error e, s') := run_bind_error hr
    have hsame : Fails bad (m >>= f) s ↔ Fails bad m s := by
      rw [fails_iff_of_error (congrArg Prod.fst hrun), fails_iff_of_error (congrArg Prod.fst hr)]
    rw [hr] at hkeeps hblames
    rw [hr, onward, List.append_nil]
    refine ⟨fun v hv hfatal => hsame.mpr (hm.fails v hv hfatal), fun h => ?_, by rwa [hrun]⟩
    rw [hrun]
    exact hblames (hsame.mp h)
  · have hrun : (m >>= f) s = f a s' := run_bind_ok hr
    rw [hr] at hkeeps
    have hrest := hf a s' hr hkeeps
    have hsame : Fails bad (m >>= f) s ↔ Fails bad (f a) s' := by
      rw [Fails, Fails, hrun]
    rw [hr, onward]
    refine ⟨fun v hv hfatal => ?_, fun h => ?_, by rw [hrun]; exact hrest.keeps⟩
    · rcases List.mem_append.mp hv with hseen | hnext
      · exact absurd (hm.fails v hseen hfatal) (not_fails_of_ok (congrArg Prod.fst hr))
      · exact hsame.mpr (hrest.fails v hnext hfatal)
    · rw [hrun]
      refine (hrest.blames (hsame.mp h)).imp ?_ id
      rintro ⟨v, hv, hfatal⟩
      exact ⟨v, List.mem_append_right _ hv, hfatal⟩

/-- The same after a program without visits. -/
theorem quiet_bind {m : Prog σ ε α} {f : α → Prog σ ε β} {next : α → σ → List γ}
    (hm : Meets I bad late fatal m s [])
    (hf : ∀ a s', m s = (.ok a, s') → I s' → Meets I bad late fatal (f a) s' (next a s')) :
    Meets I bad late fatal (m >>= f) s (onward (m s) next) := hm.bind hf

/-- And before one. -/
theorem bind_quiet {m : Prog σ ε α} {f : α → Prog σ ε β} (hm : Meets I bad late fatal m s seen)
    (hf : ∀ a s', m s = (.ok a, s') → I s' → Meets I bad late fatal (f a) s' []) :
    Meets I bad late fatal (m >>= f) s seen := by
  have h := hm.bind hf
  rwa [onward_nil, List.append_nil] at h

/-- The turns of a loop, each in the state it is reached in. -/
theorem forWhile {goes : β → Bool} {f : α → Prog σ ε β} {see : α → σ → List γ} {l : List α}
    (hstep : ∀ a ∈ l, ∀ s, I s → Meets I bad late fatal (f a) s (see a s)) (hs : I s) :
    Meets I bad late fatal (Prog.forWhile goes f l) s (visits goes f see l s) := by
  induction l generalizing s with
  | nil => exact .pure () hs
  | cons a l ih =>
    refine (hstep a List.mem_cons_self s hs).bind fun b s' _ hs' => ?_
    split
    · exact ih (fun a' ha' => hstep a' (List.mem_cons_of_mem _ ha')) hs'
    · exact .pure () hs'

theorem forEach {f : α → Prog σ ε Unit} {see : α → σ → List γ} {l : List α}
    (hstep : ∀ a ∈ l, ∀ s, I s → Meets I bad late fatal (f a) s (see a s)) (hs : I s) :
    Meets I bad late fatal (Prog.forEach l f) s (visits (fun _ => true) f see l s) := by
  rw [forEach_eq_forWhile]
  exact forWhile hstep hs

/-- A loop without visits. -/
theorem forEach_quiet {f : α → Prog σ ε Unit} {l : List α}
    (hstep : ∀ a ∈ l, ∀ s, I s → Meets I bad late fatal (f a) s []) (hs : I s) :
    Meets I bad late fatal (Prog.forEach l f) s [] := by
  induction l generalizing s with
  | nil => exact .pure () hs
  | cons a l ih =>
    refine (hstep a List.mem_cons_self s hs).bind_quiet fun _ s' _ hs' => ?_
    exact ih (fun a' ha' => hstep a' (List.mem_cons_of_mem _ ha')) hs'

end Meets

/-! ## A stock -/

/-- The program comes back: it ends, or stops in a way its caller sees. -/
def ComesBack (back : ε → Prop) (m : Prog σ ε α) (s : σ) : Prop := ∀ e, (m s).1 = .error e → back e

/-- If the program comes back, its visits have cost what is gone from the stock, and it keeps an
invariant. -/
def Spends (I : σ → Prop) (back : ε → Prop) (stock : σ → Nat) (cost : γ → Nat) (m : Prog σ ε α)
    (s : σ) (seen : List γ) : Prop :=
  ComesBack back m s → stock (m s).2 + (seen.map cost).sum = stock s ∧ I (m s).2

namespace Spends

variable {I : σ → Prop} {back : ε → Prop} {stock : σ → Nat} {cost : γ → Nat} {s : σ}
  {seen : List γ}

/-- A program that leaves the stock alone. -/
theorem quiet {m : Prog σ ε α} (h : stock (m s).2 = stock s) (hs : I (m s).2) :
    Spends I back stock cost m s [] := fun _ => ⟨h, hs⟩

theorem pure (a : α) (hs : I s) : Spends I back stock cost (Pure.pure a : Prog σ ε α) s [] :=
  quiet rfl hs

theorem gets_bind {g : σ → α} {f : α → Prog σ ε β} (h : Spends I back stock cost (f (g s)) s seen) :
    Spends I back stock cost (gets g >>= f) s seen := h

theorem bind {m : Prog σ ε α} {f : α → Prog σ ε β} {next : α → σ → List γ}
    (hm : Spends I back stock cost m s seen)
    (hf : ∀ a s', m s = (.ok a, s') → I s' → Spends I back stock cost (f a) s' (next a s')) :
    Spends I back stock cost (m >>= f) s (seen ++ onward (m s) next) := by
  intro hback
  obtain ⟨r, hr⟩ : ∃ r, m s = r := ⟨_, rfl⟩
  obtain ⟨e | a, s'⟩ := r
  · have hrun : (m >>= f) s = (.error e, s') := run_bind_error hr
    have hm' := hm fun e' he' => by
      rw [hr] at he'
      cases he'
      exact hback e (congrArg Prod.fst hrun)
    rw [hr] at hm'
    rw [hrun, hr, onward, List.append_nil]
    exact hm'
  · have hrun : (m >>= f) s = f a s' := run_bind_ok hr
    obtain ⟨hfirst, hs'⟩ := hm fun e' he' => by
      rw [hr] at he'
      cases he'
    rw [hr] at hfirst hs'
    obtain ⟨hrest, hs''⟩ := hf a s' hr hs' fun e he => hback e (by rw [hrun]; exact he)
    have hstock : stock s' + (seen.map cost).sum = stock s := hfirst
    rw [hrun, hr, onward, List.map_append, List.sum_append]
    exact ⟨by omega, hs''⟩

/-- The same after a program without visits. -/
theorem quiet_bind {m : Prog σ ε α} {f : α → Prog σ ε β} {next : α → σ → List γ}
    (hm : Spends I back stock cost m s [])
    (hf : ∀ a s', m s = (.ok a, s') → I s' → Spends I back stock cost (f a) s' (next a s')) :
    Spends I back stock cost (m >>= f) s (onward (m s) next) := hm.bind hf

/-- And before one. -/
theorem bind_quiet {m : Prog σ ε α} {f : α → Prog σ ε β} (hm : Spends I back stock cost m s seen)
    (hf : ∀ a s', m s = (.ok a, s') → I s' → Spends I back stock cost (f a) s' []) :
    Spends I back stock cost (m >>= f) s seen := by
  have h := hm.bind hf
  rwa [onward_nil, List.append_nil] at h

/-- The turns of a loop, each in the state it is reached in. -/
theorem forWhile {goes : β → Bool} {f : α → Prog σ ε β} {see : α → σ → List γ} {l : List α}
    (hstep : ∀ a ∈ l, ∀ s, I s → Spends I back stock cost (f a) s (see a s)) (hs : I s) :
    Spends I back stock cost (Prog.forWhile goes f l) s (visits goes f see l s) := by
  induction l generalizing s with
  | nil => exact .pure () hs
  | cons a l ih =>
    refine (hstep a List.mem_cons_self s hs).bind fun b s' _ hs' => ?_
    split
    · exact ih (fun a' ha' => hstep a' (List.mem_cons_of_mem _ ha')) hs'
    · exact .pure () hs'

theorem forEach {f : α → Prog σ ε Unit} {see : α → σ → List γ} {l : List α}
    (hstep : ∀ a ∈ l, ∀ s, I s → Spends I back stock cost (f a) s (see a s)) (hs : I s) :
    Spends I back stock cost (Prog.forEach l f) s (visits (fun _ => true) f see l s) := by
  rw [forEach_eq_forWhile]
  exact forWhile hstep hs

end Spends

/-! ## The errors of a program -/

/-- The program only ends with errors of a kind. -/
def Raises (P : ε → Prop) (m : Prog σ ε α) : Prop := ∀ s e, (m s).1 = .error e → P e

namespace Raises

variable {P : ε → Prop}

theorem bind {m : Prog σ ε α} {f : α → Prog σ ε β} (hm : Raises P m) (hf : ∀ a, Raises P (f a)) :
    Raises P (m >>= f) := by
  intro s e he
  obtain ⟨r, hr⟩ : ∃ r, m s = r := ⟨_, rfl⟩
  obtain ⟨e' | a, s'⟩ := r
  · rw [run_bind_error hr] at he
    cases he
    exact hm s e (congrArg Prod.fst hr)
  · rw [run_bind_ok hr] at he
    exact hf a s' e he

theorem forEach {f : α → Prog σ ε Unit} {l : List α} (h : ∀ a ∈ l, Raises P (f a)) :
    Raises P (Prog.forEach l f) := by
  induction l with
  | nil =>
    intro s e he
    cases he
  | cons a l ih =>
    exact bind (h a List.mem_cons_self) fun _ => ih fun a' ha' => h a' (List.mem_cons_of_mem _ ha')

/-- A program that only raises bad errors ends well if and only if it does not fail. -/
theorem ok_iff {bad : ε → Prop} {m : Prog σ ε Unit} (h : Raises bad m) {s : σ} :
    (m s).1 = .ok () ↔ ¬ Fails bad m s := by
  constructor
  · exact not_fails_of_ok
  · intro hnot
    obtain ⟨r, hr⟩ : ∃ r, (m s).1 = r := ⟨_, rfl⟩
    cases r with
    | error e => exact absurd ⟨e, hr, h s e hr⟩ hnot
    | ok _ => exact hr

end Raises

end Prog

import Mathlib.Logic.Relation

/-!
# Roots.Lib.Prog

Programs over a state `σ` that can stop early with an exit value `ε`, and the rules
to reason about them.

A `Prog` is what a method that takes `&mut self` and returns a `Result` is: it
computes on the state, and **the state survives a stop**. `Prog.Rules` say what the
programs of a system may do: which small steps they are made of and which stops they
must not end in. `Prog.Obeys` has one rule per construct, and an invariant of the
steps is then an invariant of every program that obeys, however it ends.
-/

/-- A computation on a state that may stop early. -/
def Prog (σ ε α : Type) : Type := σ → Except ε α × σ

namespace Prog

variable {σ ε α β : Type}

instance : Monad (Prog σ ε) where
  pure a := fun s => (.ok a, s)
  bind m f := fun s =>
    match m s with
    | (.ok a, s') => f a s'
    | (.error e, s') => (.error e, s')

/-- A function of the state. -/
def gets (f : σ → α) : Prog σ ε α := fun s => (.ok (f s), s)

/-- Change the state. -/
def modify (f : σ → σ) : Prog σ ε Unit := fun s => (.ok (), f s)

/-- Stop. -/
def exit (e : ε) : Prog σ ε α := fun s => (.error e, s)

/-- Run `m` and hand its result on, unless it stopped in a way `fatal` names. -/
def attempt (fatal : ε → Bool) (m : Prog σ ε α) : Prog σ ε (Except ε α) := fun s =>
  match m s with
  | (.ok a, s') => (.ok (.ok a), s')
  | (.error e, s') => if fatal e then (.error e, s') else (.ok (.error e), s')

/-- Run `f` on the elements of a list in order, up to the first stop. -/
def forEach : List α → (α → Prog σ ε Unit) → Prog σ ε Unit
  | [], _ => pure ()
  | a :: l, f => f a >>= fun _ => forEach l f

section Run

variable (s : σ)

@[simp]
theorem run_pure (a : α) : (pure a : Prog σ ε α) s = (.ok a, s) := rfl

@[simp]
theorem run_gets (f : σ → α) : (gets f : Prog σ ε α) s = (.ok (f s), s) := rfl

@[simp]
theorem run_modify (f : σ → σ) : (modify f : Prog σ ε Unit) s = (.ok (), f s) := rfl

@[simp]
theorem run_exit (e : ε) : (exit e : Prog σ ε α) s = (.error e, s) := rfl

theorem run_bind (m : Prog σ ε α) (f : α → Prog σ ε β) :
    (m >>= f) s =
      match m s with
      | (.ok a, s') => f a s'
      | (.error e, s') => (.error e, s') := rfl

variable {s}

theorem run_bind_ok {m : Prog σ ε α} {f : α → Prog σ ε β} {a : α} {s' : σ}
    (h : m s = (.ok a, s')) : (m >>= f) s = f a s' := by
  rw [run_bind, h]

theorem run_bind_error {m : Prog σ ε α} {f : α → Prog σ ε β} {e : ε} {s' : σ}
    (h : m s = (.error e, s')) : (m >>= f) s = (.error e, s') := by
  rw [run_bind, h]

theorem bind_assoc {γ : Type} (m : Prog σ ε α) (f : α → Prog σ ε β) (g : β → Prog σ ε γ) :
    (m >>= f) >>= g = m >>= fun a => f a >>= g := by
  funext s
  obtain ⟨r, hr⟩ : ∃ r, m s = r := ⟨_, rfl⟩
  obtain ⟨e | a, s'⟩ := r
  · rw [run_bind_error (run_bind_error hr), run_bind_error hr]
  · rw [run_bind, run_bind_ok hr, run_bind_ok hr, run_bind]

theorem fst_bind_error {m : Prog σ ε α} {f : α → Prog σ ε β} {e : ε} (h : (m s).1 = .error e) :
    ((m >>= f) s).1 = .error e := by
  rw [run_bind_error (Prod.ext h rfl)]

/-- A program that did not stop ran both its parts to their ends. -/
theorem run_bind_eq_ok {m : Prog σ ε α} {f : α → Prog σ ε β} {b : β} {s'' : σ}
    (h : (m >>= f) s = (.ok b, s'')) : ∃ a s', m s = (.ok a, s') ∧ f a s' = (.ok b, s'') := by
  rw [run_bind] at h
  split at h
  · exact ⟨_, _, ‹_›, h⟩
  · cases h

@[simp]
theorem gets_bind (g : σ → α) (f : α → Prog σ ε β) : (gets g >>= f) s = f (g s) s := rfl

@[simp]
theorem modify_bind (g : σ → σ) (f : Unit → Prog σ ε β) : (modify g >>= f) s = f () (g s) := rfl

@[simp]
theorem pure_bind' (a : α) (f : α → Prog σ ε β) : (pure a >>= f) s = f a s := rfl

end Run

/-! ## Properties of the state -/

/-- A property of the state holds after two programs if each of them keeps it. -/
theorem snd_bind {P : σ → Prop} {m : Prog σ ε α} {f : α → Prog σ ε β} {s : σ} (hm : P (m s).2)
    (hf : ∀ a s', m s = (.ok a, s') → P s' → P (f a s').2) : P ((m >>= f) s).2 := by
  rw [run_bind]
  obtain ⟨r, hr⟩ : ∃ r, m s = r := ⟨_, rfl⟩
  obtain ⟨e | a, s'⟩ := r
  · rw [hr] at hm ⊢
    exact hm
  · rw [hr] at hm ⊢
    exact hf a s' hr hm

/-- And after a loop if its body keeps it. -/
theorem snd_forEach {P : σ → Prop} {l : List α} {f : α → Prog σ ε Unit} {s : σ} (hs : P s)
    (hf : ∀ a ∈ l, ∀ s', P s' → P (f a s').2) : P (forEach l f s).2 := by
  induction l generalizing s with
  | nil => exact hs
  | cons a l ih =>
    refine snd_bind (hf a (List.mem_cons_self ..) s hs) fun _ s' _ hs' => ?_
    exact ih hs' fun b hb => hf b (List.mem_cons_of_mem _ hb)

/-! ## Rules -/

/-- What the programs of a system may do: the small steps they are made of, an
invariant of these steps, and the stops they must not end in, each in a state. -/
structure Rules (σ ε : Type) where
  step : σ → σ → Prop
  inv : σ → Prop
  bad : ε → σ → Prop
  keeps : ∀ {s s'}, step s s' → inv s → inv s'

/-- From `s`, if the invariant holds there, the program makes only steps of the rules,
whether it stops or not, and does not stop in a bad way. -/
def Obeys (R : Rules σ ε) (m : Prog σ ε α) (s : σ) : Prop :=
  R.inv s → Relation.ReflTransGen R.step s (m s).2 ∧ ∀ e, (m s).1 = .error e → ¬ R.bad e (m s).2

namespace Rules

variable (R : Rules σ ε)

/-- The rules hold from every state. -/
def Allows (m : Prog σ ε α) : Prop := ∀ s, Obeys R m s

variable {R}

/-- The invariant holds wherever a walk ends. -/
theorem inv_of_walk {s s' : σ} (h : Relation.ReflTransGen R.step s s') (hs : R.inv s) :
    R.inv s' := by
  induction h with
  | refl => exact hs
  | tail _ hstep ih => exact R.keeps hstep ih

end Rules

namespace Obeys

variable {R : Rules σ ε} {s : σ}

theorem walk {m : Prog σ ε α} (hm : Obeys R m s) (hs : R.inv s) :
    Relation.ReflTransGen R.step s (m s).2 := (hm hs).1

theorem not_bad {m : Prog σ ε α} (hm : Obeys R m s) (hs : R.inv s) {e : ε}
    (he : (m s).1 = .error e) : ¬ R.bad e (m s).2 := (hm hs).2 e he

theorem inv {m : Prog σ ε α} (hm : Obeys R m s) (hs : R.inv s) : R.inv (m s).2 :=
  Rules.inv_of_walk (hm hs).1 hs

theorem walk_of_eq {m : Prog σ ε α} {r : Except ε α} {s' : σ} (hm : Obeys R m s) (hs : R.inv s)
    (h : m s = (r, s')) : Relation.ReflTransGen R.step s s' := by
  have hwalk := hm.walk hs
  rwa [h] at hwalk

theorem inv_of_eq {m : Prog σ ε α} {r : Except ε α} {s' : σ} (hm : Obeys R m s) (hs : R.inv s)
    (h : m s = (r, s')) : R.inv s' := Rules.inv_of_walk (hm.walk_of_eq hs h) hs

/-- A claim about a program where the invariant holds may use the invariant. -/
theorem of_inv {m : Prog σ ε α} (h : R.inv s → Obeys R m s) : Obeys R m s := fun hs => h hs hs

theorem pure (a : α) : Obeys R (Pure.pure a : Prog σ ε α) s :=
  fun _ => ⟨.refl, fun _ h => by cases h⟩

theorem modify {f : σ → σ} (h : R.inv s → R.step s (f s)) :
    Obeys R (Prog.modify f : Prog σ ε Unit) s :=
  fun hs => ⟨.single (h hs), fun _ h => by cases h⟩

/-- A change that is several steps. -/
theorem modify_walk {f : σ → σ} (h : R.inv s → Relation.ReflTransGen R.step s (f s)) :
    Obeys R (Prog.modify f : Prog σ ε Unit) s :=
  fun hs => ⟨h hs, fun _ h => by cases h⟩

theorem modify_same {f : σ → σ} (h : f s = s) : Obeys R (Prog.modify f : Prog σ ε Unit) s :=
  fun _ => ⟨by rw [run_modify, h], fun _ h => by cases h⟩

/-- A stop is allowed if it is not a bad one where the invariant holds. -/
theorem exit {e : ε} (h : R.inv s → ¬ R.bad e s) : Obeys R (Prog.exit e : Prog σ ε α) s :=
  fun hs => ⟨.refl, fun e' he' => by cases he'; exact h hs⟩

/-- The continuation runs where the first part left the state. -/
theorem bind {m : Prog σ ε α} {f : α → Prog σ ε β} (hm : Obeys R m s)
    (hf : ∀ a s', m s = (.ok a, s') → Obeys R (f a) s') : Obeys R (m >>= f) s := by
  intro hs
  obtain ⟨hwalk, hbad⟩ := hm hs
  obtain ⟨r, hr⟩ : ∃ r, m s = r := ⟨_, rfl⟩
  obtain ⟨e | a, s'⟩ := r
  · rw [hr] at hwalk hbad
    rw [run_bind_error hr]
    exact ⟨hwalk, fun e' he' => by cases he'; exact hbad e rfl⟩
  · rw [hr] at hwalk
    rw [run_bind_ok hr]
    obtain ⟨hwalk', hbad'⟩ := hf a s' hr (R.inv_of_walk hwalk hs)
    exact ⟨hwalk.trans hwalk', hbad'⟩

theorem gets_bind {g : σ → α} {f : α → Prog σ ε β} (h : Obeys R (f (g s)) s) :
    Obeys R (Prog.gets g >>= f) s := h

theorem modify_bind {g : σ → σ} {f : Unit → Prog σ ε β} (hg : R.inv s → R.step s (g s))
    (hf : Obeys R (f ()) (g s)) : Obeys R (Prog.modify g >>= f) s :=
  bind (modify hg) fun _ s' h => by cases h; exact hf

theorem modify_walk_bind {g : σ → σ} {f : Unit → Prog σ ε β}
    (hg : R.inv s → Relation.ReflTransGen R.step s (g s)) (hf : Obeys R (f ()) (g s)) :
    Obeys R (Prog.modify g >>= f) s :=
  bind (modify_walk hg) fun _ s' h => by cases h; exact hf

/-- A program that comes to another one after a step. -/
theorem of_run {m m' : Prog σ ε α} {s' : σ} (hstep : R.inv s → R.step s s') (hrun : m s = m' s')
    (h : Obeys R m' s') : Obeys R m s := by
  intro hs
  rw [hrun]
  obtain ⟨hwalk, hbad⟩ := h (R.keeps (hstep hs) hs)
  exact ⟨.head (hstep hs) hwalk, hbad⟩

/-- A fatal stop passes through `attempt`, so it must not be a bad one either. -/
theorem attempt {fatal : ε → Bool} {m : Prog σ ε α} (hm : Obeys R m s) :
    Obeys R (Prog.attempt fatal m) s := by
  intro hs
  obtain ⟨hwalk, hbad⟩ := hm hs
  unfold Prog.attempt
  obtain ⟨r, hr⟩ : ∃ r, m s = r := ⟨_, rfl⟩
  obtain ⟨e | a, s'⟩ := r
  · rw [hr] at hwalk hbad
    simp only [hr]
    split
    · exact ⟨hwalk, fun e' he' => by cases he'; exact hbad e rfl⟩
    · exact ⟨hwalk, fun e' he' => by cases he'⟩
  · rw [hr] at hwalk
    simp only [hr]
    exact ⟨hwalk, fun e' he' => by cases he'⟩

theorem ite {p : Prop} [Decidable p] {m m' : Prog σ ε α} (hm : p → Obeys R m s)
    (hm' : ¬ p → Obeys R m' s) : Obeys R (if p then m else m') s := by
  split
  · exact hm ‹_›
  · exact hm' ‹_›

/-- A loop obeys if its body does where a property holds that the body keeps. -/
theorem forEach {l : List α} {f : α → Prog σ ε Unit} {I : σ → Prop}
    (hbody : ∀ a ∈ l, ∀ s, R.inv s → I s → Obeys R (f a) s ∧ I (f a s).2) (hs : I s) :
    Obeys R (Prog.forEach l f) s := by
  induction l generalizing s with
  | nil => exact pure ()
  | cons a l ih =>
    refine of_inv fun hinv => ?_
    obtain ⟨hobeys, hkeep⟩ := hbody a (List.mem_cons_self ..) s hinv hs
    refine bind hobeys fun _ s' h => ih (fun b hb => hbody b (List.mem_cons_of_mem _ hb)) ?_
    rwa [h] at hkeep

end Obeys

namespace Rules.Allows

variable {R : Rules σ ε}

theorem pure (a : α) : R.Allows (Pure.pure a : Prog σ ε α) := fun _ => .pure a

theorem exit {e : ε} (h : ∀ s, ¬ R.bad e s) : R.Allows (Prog.exit e : Prog σ ε α) :=
  fun s => .exit fun _ => h s

theorem modify {f : σ → σ} (h : ∀ s, R.inv s → R.step s (f s)) :
    R.Allows (Prog.modify f : Prog σ ε Unit) := fun s => .modify (h s)

theorem bind {m : Prog σ ε α} {f : α → Prog σ ε β} (hm : R.Allows m) (hf : ∀ a, R.Allows (f a)) :
    R.Allows (m >>= f) := fun s => .bind (hm s) fun a s' _ => hf a s'

/-- Reading the state before a program that is allowed whatever was read. -/
theorem gets_bind {g : σ → α} {f : α → Prog σ ε β} (h : ∀ a, R.Allows (f a)) :
    R.Allows (Prog.gets g >>= f) := fun s => .gets_bind (h (g s) s)

theorem ite {p : Prop} [Decidable p] {m m' : Prog σ ε α} (hm : R.Allows m)
    (hm' : R.Allows m') : R.Allows (if p then m else m') :=
  fun s => .ite (fun _ => hm s) (fun _ => hm' s)

theorem attempt {fatal : ε → Bool} {m : Prog σ ε α} (hm : R.Allows m) :
    R.Allows (Prog.attempt fatal m) := fun s => .attempt (hm s)

theorem forEach {l : List α} {f : α → Prog σ ε Unit} (h : ∀ a ∈ l, R.Allows (f a)) :
    R.Allows (Prog.forEach l f) := by
  induction l with
  | nil => exact pure ()
  | cons a l ih =>
    refine bind (h a (List.mem_cons_self ..)) fun _ => ?_
    exact ih fun b hb => h b (List.mem_cons_of_mem _ hb)

end Rules.Allows

end Prog

import Mathlib.Data.Finset.Card
import Mathlib.Data.List.Nodup

/-!
# Roots.Lib.Walk

Walks along a partial function, such as the pointers of a forest that may be broken: a pointer
can lead nowhere, and pointers can form a circle. A loop that follows them ends on every finite
table if it remembers where it has been (`Way.exists_of_finite`), and `Ends` says of a loop, given
by what one turn of it does, that it comes to its end.

`Way` is the walk that remembers. `Rises` is the climb to a point that leads to itself, with the
number of steps it takes. **A walk ends at such a point if and only if its start rises to it**
(`Way.rises_iff`).
-/

namespace Walk

/-! ## Loops -/

/-- A loop ends with a result. One turn of it gives the next state, or the result. -/
inductive Ends {σ ρ : Type} (turn : σ → σ ⊕ ρ) : σ → ρ → Prop
  | last {s : σ} {r : ρ} (h : turn s = .inr r) : Ends turn s r
  | next {s s' : σ} {r : ρ} (h : turn s = .inl s') (hrest : Ends turn s' r) : Ends turn s r

/-! ## Walks that remember -/

variable {α : Type} {up : α → Option α}

/-- From `here` the walk visits `rest` and then stops, because a pointer leads to a point without
one or to a point that was seen. -/
inductive Way (up : α → Option α) : List α → α → List α → Prop
  | off {seen : List α} {here : α} (h : up here = none) : Way up seen here []
  | met {seen : List α} {here : α} (h : here ∈ seen) : Way up seen here []
  | step {seen rest : List α} {here next : α} (hnew : here ∉ seen) (hup : up here = some next)
      (hrest : Way up (here :: seen) next rest) : Way up seen here (here :: rest)

namespace Way

variable {seen rest : List α} {here : α}

theorem notMem_seen (h : Way up seen here rest) : ∀ x ∈ rest, x ∉ seen := by
  induction h with
  | off _ => simp
  | met _ => simp
  | step hnew _ _ ih =>
    intro x hx
    rcases List.mem_cons.mp hx with rfl | hx
    · exact hnew
    · exact List.not_mem_of_not_mem_cons (ih x hx)

theorem nodup (h : Way up seen here rest) : rest.Nodup := by
  induction h with
  | off _ => exact List.nodup_nil
  | met _ => exact List.nodup_nil
  | step _ _ hrest ih =>
    exact List.nodup_cons.mpr ⟨fun hx => hrest.notMem_seen _ hx List.mem_cons_self, ih⟩

theorem isSome_up (h : Way up seen here rest) : ∀ x ∈ rest, (up x).isSome := by
  induction h with
  | off _ => simp
  | met _ => simp
  | step _ hup _ ih =>
    intro x hx
    rcases List.mem_cons.mp hx with rfl | hx
    · rw [hup, Option.isSome_some]
    · exact ih x hx

/-- A walk that goes on from a point it has just seen stops at once. -/
theorem eq_nil_of_mem (h : Way up seen here rest) (hmem : here ∈ seen) : rest = [] := by
  cases h with
  | off _ => rfl
  | met _ => rfl
  | step hnew _ _ => exact absurd hmem hnew

variable [DecidableEq α] {keys : Finset α}

/-- A finite table has a walk from every point. -/
theorem exists_of_finite (hkeys : ∀ x, (up x).isSome → x ∈ keys) (seen : List α) (here : α) :
    ∃ rest, Way up seen here rest := by
  obtain ⟨n, hn⟩ : ∃ n, (keys.filter (· ∉ seen)).card ≤ n := ⟨_, le_rfl⟩
  induction n generalizing seen here with
  | zero =>
    -- All points with a pointer have been seen.
    have hempty : keys.filter (· ∉ seen) = ∅ := Finset.card_eq_zero.mp (Nat.le_zero.mp hn)
    cases hup : up here with
    | none => exact ⟨[], .off hup⟩
    | some next =>
      have hmem : here ∈ keys := hkeys here (by rw [hup, Option.isSome_some])
      refine ⟨[], .met (by_contra fun hnew => ?_)⟩
      have hleft : here ∈ keys.filter (· ∉ seen) := Finset.mem_filter.mpr ⟨hmem, hnew⟩
      rw [hempty] at hleft
      exact absurd hleft (Finset.notMem_empty here)
  | succ n ih =>
    by_cases hmet : here ∈ seen
    · exact ⟨[], .met hmet⟩
    cases hup : up here with
    | none => exact ⟨[], .off hup⟩
    | some next =>
      have hmem : here ∈ keys := hkeys here (by rw [hup, Option.isSome_some])
      have hfewer : (keys.filter (· ∉ here :: seen)).card < (keys.filter (· ∉ seen)).card := by
        refine Finset.card_lt_card (Finset.ssubset_iff_of_subset ?_ |>.mpr ?_)
        · exact Finset.monotone_filter_right keys fun x _ hx => List.not_mem_of_not_mem_cons hx
        · exact ⟨here, Finset.mem_filter.mpr ⟨hmem, hmet⟩, by simp⟩
      obtain ⟨rest, hrest⟩ := ih (here :: seen) next (by omega)
      exact ⟨here :: rest, .step hmet hup hrest⟩

/-- It is no longer than the table. -/
theorem length_le (h : Way up seen here rest) (hkeys : ∀ x, (up x).isSome → x ∈ keys) :
    rest.length ≤ keys.card := by
  rw [← List.toFinset_card_of_nodup h.nodup]
  exact Finset.card_le_card fun x hx => hkeys x (h.isSome_up x (List.mem_toFinset.mp hx))

end Way

/-! ## The climb -/

/-- In so many steps the climb gets to a point that leads to itself. -/
inductive Rises (up : α → Option α) : Nat → α → α → Prop
  | top {x : α} (hup : up x = some x) : Rises up 0 x x
  | step {n : Nat} {x y r : α} (hup : up x = some y) (hne : y ≠ x) (hrest : Rises up n y r) :
      Rises up (n + 1) x r

theorem Rises.fixed {n : Nat} {x r : α} (h : Rises up n x r) : up r = some r := by
  induction h with
  | top hup => exact hup
  | step _ _ _ ih => exact ih

theorem Rises.unique {n m : Nat} {x r s : α} (h : Rises up n x r) (h' : Rises up m x s) :
    n = m ∧ r = s := by
  induction h generalizing m with
  | top hup =>
    cases h' with
    | top _ => exact ⟨rfl, rfl⟩
    | step hup' hne _ =>
      rw [hup] at hup'
      exact absurd (Option.some.inj hup').symm hne
  | step hup hne hrest ih =>
    cases h' with
    | top hup' =>
      rw [hup] at hup'
      exact absurd (Option.some.inj hup') hne
    | step hup' _ hrest' =>
      rw [hup] at hup'
      obtain rfl := Option.some.inj hup'
      obtain ⟨rfl, rfl⟩ := ih hrest'
      exact ⟨rfl, rfl⟩

/-- A walk whose last point leads to itself has climbed. -/
theorem Way.rises {seen rest : List α} {here r : α} (h : Way up seen here rest)
    (hlast : rest.getLast? = some r) (hfixed : up r = some r) :
    Rises up (rest.length - 1) here r := by
  induction h with
  | off _ => cases hlast
  | met _ => cases hlast
  | @step seen rest here next hnew hup hrest ih =>
    cases rest with
    | nil =>
      obtain rfl := Option.some.inj hlast
      exact .top hfixed
    | cons x rest =>
      have hclimb := ih hlast
      have hne : next ≠ here := fun heq => by
        have hnil := hrest.eq_nil_of_mem (heq ▸ List.mem_cons_self)
        cases hnil
      exact .step hup hne hclimb

/-- The walk from a point that rises goes all the way: it does not come round to a point that was
seen, for that would rise in more steps. -/
theorem Rises.way {seen rest : List α} {here r : α} {n : Nat} (hway : Way up seen here rest)
    (h : Rises up n here r) (hseen : ∀ x ∈ seen, ∃ m s, n < m ∧ Rises up m x s) :
    rest.length = n + 1 ∧ rest.getLast? = some r := by
  induction hway generalizing n with
  | off hup =>
    cases h with
    | top hup' => rw [hup] at hup'; cases hup'
    | step hup' _ _ => rw [hup] at hup'; cases hup'
  | met hmem =>
    obtain ⟨m, s, hlt, hm⟩ := hseen _ hmem
    exact absurd (h.unique hm).1 hlt.ne
  | @step seen rest here next hnew hup hrest ih =>
    cases h with
    | top hup' =>
      rw [hup] at hup'
      obtain rfl := Option.some.inj hup'
      obtain rfl := hrest.eq_nil_of_mem List.mem_cons_self
      exact ⟨rfl, rfl⟩
    | @step n _ y _ hup' hne hclimb =>
      rw [hup] at hup'
      obtain rfl := Option.some.inj hup'
      obtain ⟨hlen, hlast⟩ := ih hclimb fun x hx => by
        rcases List.mem_cons.mp hx with rfl | hx
        · exact ⟨n + 1, r, Nat.lt_succ_self n, .step hup hne hclimb⟩
        · obtain ⟨m, s, hlt, hm⟩ := hseen x hx
          exact ⟨m, s, by omega, hm⟩
      refine ⟨by rw [List.length_cons, hlen], ?_⟩
      cases rest with
      | nil => cases hlast
      | cons x rest => exact hlast

/-- From where a walk starts there is a climb if its last point leads to itself, and only to that
point. -/
theorem Way.rises_iff {rest : List α} {start last : α} {dist : Nat} (hway : Way up [] start rest)
    (hlast : rest.getLast? = some last) (hdist : rest.length = dist + 1) {n : Nat} {r : α} :
    Rises up n start r ↔ up last = some last ∧ n = dist ∧ r = last := by
  constructor
  · intro hrises
    obtain ⟨hlen, hr⟩ := hrises.way hway (by simp)
    rw [hlast] at hr
    obtain rfl := Option.some.inj hr
    exact ⟨hrises.fixed, by omega, rfl⟩
  · intro ⟨hfixed, hn, hr⟩
    have hrises := hway.rises hlast hfixed
    rw [hdist, Nat.add_sub_cancel] at hrises
    rw [hn, hr]
    exact hrises

end Walk

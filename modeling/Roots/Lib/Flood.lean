import Mathlib.Data.Fintype.Card
import Roots.Lib.PortTree

/-!
# Roots.Lib.Flood

A message that floods a tree. A node that gets it passes it on to neighbours, though never to the
one it came from, and to each of them once; messages are delivered in any order. On a tree the
message then moves **away from where it started**, so no node gets it twice and the flood ends
(`FloodStep.away`, `FloodSteps.length_lt`). If every node on the way to a target passes it on in
that direction, the target gets it (`FloodSteps.underway`).
-/

/-- The messages on their way, each with the node that sent it and the one it is for, and the nodes
that have got one. -/
structure Flood (V : Type*) where
  flight : List (V × V)
  handled : List V

section

variable {V P : Type*} [DecidableEq P] (T : PortTree V P) (wants : V → V → Prop)

/-- What `v` passes on of a message from `u`: to neighbours other than `u`, to none twice, and to
all that want it. -/
structure PassesOn (u v : V) (new : List V) : Prop where
  adj : ∀ y ∈ new, T.Adj v y
  ne : ∀ y ∈ new, y ≠ u
  nodup : new.Nodup
  wanted : ∀ y, T.Adj v y → wants v y → y ≠ u → y ∈ new

/-- One of the messages is delivered. -/
inductive FloodStep : Flood V → Flood V → Prop where
  | deliver {u v : V} {before after : List (V × V)} {handled new : List V} :
      PassesOn T wants u v new →
      FloodStep ⟨before ++ (u, v) :: after, handled⟩
        ⟨before ++ after ++ new.map fun y => (v, y), handled ++ [v]⟩

/-- `n` of them are, one after the other. -/
inductive FloodSteps : Nat → Flood V → Flood V → Prop where
  | refl (f : Flood V) : FloodSteps 0 f f
  | step {n : Nat} {f f' f'' : Flood V} :
      FloodSteps n f f' → FloodStep T wants f' f'' → FloodSteps (n + 1) f f''

variable {T wants} {s : V} {f f' : Flood V}

/-! ## Away from the start -/

/-- Every node that has got the message or is about to, other than `s`, is about to get or got it
from its neighbour on the way to `s`, and no node is there twice. -/
structure Away (T : PortTree V P) (s : V) (f : Flood V) : Prop where
  nodup : (f.handled ++ f.flight.map Prod.snd).Nodup
  start : s ∈ f.handled
  /-- What is on its way goes one step away from `s`. -/
  flight : ∀ m ∈ f.flight, m.1 ∈ f.handled ∧ T.Adj m.1 m.2 ∧ T.dist m.2 s = T.dist m.1 s + 1
  handled : ∀ v ∈ f.handled, v ≠ s → ∃ u ∈ f.handled, T.Adj v u ∧ T.dist u s + 1 = T.dist v s

namespace Away

/-- Every such node has its neighbour towards `s` among those that got the message. -/
theorem closer_handled (h : Away T s f) {y v : V} (hy : y ∈ f.handled ++ f.flight.map Prod.snd)
    (hadj : T.Adj y v) (hcloser : T.dist v s + 1 = T.dist y s) : v ∈ f.handled := by
  rcases List.mem_append.mp hy with hy | hy
  · have hne : y ≠ s := by
      rintro rfl
      rw [T.dist_self] at hcloser
      omega
    obtain ⟨u, hu, hadj', hcloser'⟩ := h.handled y hy hne
    rwa [T.closer_unique hadj hadj' hcloser hcloser']
  · obtain ⟨m, hm, rfl⟩ := List.mem_map.mp hy
    obtain ⟨hsender, hadj', haway⟩ := h.flight m hm
    rwa [T.closer_unique hadj hadj'.symm hcloser haway.symm]

end Away

/-- A neighbour other than the one towards `s` is further away. -/
theorem PortTree.dist_away {u v y : V} (huv : T.Adj u v) (haway : T.dist v s = T.dist u s + 1)
    (hvy : T.Adj v y) (hne : y ≠ u) : T.dist y s = T.dist v s + 1 := by
  rcases hvy.dist s with hcloser | hfurther
  · exact absurd (T.closer_unique hvy huv.symm hcloser.symm haway.symm) hne
  · exact hfurther

/-- What `v` passes on next does not make a node get the message twice. -/
theorem nodup_passOn {handled new : List V} (flight : List (V × V)) {v : V}
    (h : (handled ++ flight.map Prod.snd).Nodup) (hnew : new.Nodup)
    (hfresh : ∀ y ∈ new, y ∉ handled ++ flight.map Prod.snd) :
    (handled ++ (flight ++ new.map fun y => (v, y)).map Prod.snd).Nodup := by
  have hmap : (new.map fun y => (v, y)).map Prod.snd = new := by
    rw [List.map_map]
    exact List.map_id new
  rw [List.map_append, hmap, ← List.append_assoc]
  refine List.nodup_append.mpr ⟨h, hnew, fun x hx y hy hxy => ?_⟩
  exact hfresh y hy (hxy ▸ hx)

theorem FloodStep.away (h : FloodStep T wants f f') (haway : Away T s f) : Away T s f' := by
  cases h with
  | @deliver u v before after handled new hpass =>
    have hmem : (u, v) ∈ before ++ (u, v) :: after := List.mem_append_right _ List.mem_cons_self
    obtain ⟨hu, huv, hdist⟩ := haway.flight _ hmem
    have hnodup : (handled ++ [v] ++ (before ++ after).map Prod.snd).Nodup := by
      refine (List.Perm.nodup_iff ?_).mp haway.nodup
      rw [List.append_assoc]
      refine List.Perm.append_left _ ?_
      rw [List.map_append, List.map_append, List.map_cons]
      exact List.perm_middle
    have hv : v ∉ handled := by
      intro hv
      refine (List.disjoint_of_nodup_append (List.nodup_append.mp hnodup).1) hv ?_
      exact List.mem_singleton_self v
    have hfurther : ∀ y ∈ new, T.dist y s = T.dist v s + 1 :=
      fun y hy => PortTree.dist_away huv hdist (hpass.adj y hy) (hpass.ne y hy)
    refine ⟨?_, List.mem_append_left _ haway.start, fun m hm => ?_, fun x hx hne => ?_⟩
    · refine nodup_passOn _ hnodup hpass.nodup fun y hy hold => hv ?_
      -- the neighbour of `y` towards `s` is `v`, which had not got the message
      refine haway.closer_handled (y := y) ?_ (hpass.adj y hy).symm (hfurther y hy).symm
      have hyv : y ≠ v := by
        rintro rfl
        have := hfurther y hy
        omega
      simp only [List.mem_append, List.map_append, List.map_cons, List.mem_cons] at hold ⊢
      tauto
    · rcases List.mem_append.mp hm with hm | hm
      · obtain ⟨hsender, hrest⟩ := haway.flight m (by
          simp only [List.mem_append, List.mem_cons] at hm ⊢
          tauto)
        exact ⟨List.mem_append_left _ hsender, hrest⟩
      · obtain ⟨y, hy, rfl⟩ := List.mem_map.mp hm
        exact ⟨List.mem_append_right _ (List.mem_singleton_self v), hpass.adj y hy, hfurther y hy⟩
    · rcases List.mem_append.mp hx with hx | hx
      · obtain ⟨z, hz, hrest⟩ := haway.handled x hx hne
        exact ⟨z, List.mem_append_left _ hz, hrest⟩
      · rw [List.mem_singleton.mp hx]
        exact ⟨u, List.mem_append_left _ hu, huv.symm, hdist.symm⟩

/-- The flood begins at `s`. -/
theorem Away.init {new : List V} (h : PassesOn T wants s s new) :
    Away T s ⟨new.map fun y => (s, y), [s]⟩ := by
  have hdist : ∀ y ∈ new, T.dist y s = T.dist s s + 1 := by
    intro y hy
    rcases (h.adj y hy).dist s with hcloser | hfurther
    · rw [T.dist_self] at hcloser
      omega
    · exact hfurther
  refine ⟨?_, List.mem_singleton_self s, fun m hm => ?_, fun v hv hne => ?_⟩
  · refine nodup_passOn [] (List.nodup_singleton s) h.nodup fun y hy hys => ?_
    exact h.ne y hy (List.mem_singleton.mp hys)
  · obtain ⟨y, hy, rfl⟩ := List.mem_map.mp hm
    exact ⟨List.mem_singleton_self s, h.adj y hy, hdist y hy⟩
  · exact absurd (List.mem_singleton.mp hv) hne

theorem FloodSteps.away {n : Nat} (h : FloodSteps T wants n f f') (haway : Away T s f) :
    Away T s f' := by
  induction h with
  | refl => exact haway
  | step _ hstep ih => exact hstep.away (ih haway)

omit [DecidableEq P] in
/-- Every delivery is to a node of its own. -/
theorem FloodSteps.length_handled {n : Nat} (h : FloodSteps T wants n f f') :
    f'.handled.length = f.handled.length + n := by
  induction h with
  | refl => rfl
  | step _ hstep ih =>
    cases hstep
    rw [List.length_append, ih]
    rfl

/-- **The flood ends**: there are fewer deliveries than nodes. -/
theorem FloodSteps.length_lt [Fintype V] {n : Nat} (h : FloodSteps T wants n f f')
    (haway : Away T s f) : n < Fintype.card V := by
  have hlen := h.length_handled
  have hpos := List.length_pos_of_mem haway.start
  have hle := ((List.nodup_append.mp (h.away haway).nodup).1).length_le_card
  omega

/-! ## Towards a target -/

/-- The target has got the message, or one is on its way that has come closer. -/
def Underway (T : PortTree V P) (t : V) (f : Flood V) : Prop :=
  t ∈ f.handled ∨ ∃ m ∈ f.flight, T.dist m.1 t = T.dist m.2 t + 1

/-- The node that got the message passes it on towards the target. -/
theorem underway_passOn {t u v : V} {handled new : List V} {flight : List (V × V)}
    (hwants : ∀ x y, T.Adj x y → T.dist y t + 1 = T.dist x t → wants x y)
    (hpass : PassesOn T wants u v new) (hcame : u = v ∨ T.dist u t = T.dist v t + 1) :
    Underway T t ⟨flight ++ new.map fun y => (v, y), handled ++ [v]⟩ := by
  by_cases hvt : v = t
  · exact .inl (hvt ▸ List.mem_append_right _ (List.mem_singleton_self v))
  · obtain ⟨y, hadj, hcloser⟩ := T.exists_adj_dist hvt
    have hne : y ≠ u := by
      rintro rfl
      rcases hcame with rfl | hcame <;> omega
    have hy := hpass.wanted y hadj (hwants v y hadj hcloser) hne
    exact .inr ⟨(v, y), List.mem_append_right _ (List.mem_map_of_mem hy), hcloser.symm⟩

theorem FloodStep.underway {t : V}
    (hwants : ∀ x y, T.Adj x y → T.dist y t + 1 = T.dist x t → wants x y)
    (h : FloodStep T wants f f') (hunder : Underway T t f) : Underway T t f' := by
  cases h with
  | @deliver u v before after handled new hpass =>
    rcases hunder with ht | ⟨m, hm, hcame⟩
    · exact .inl (List.mem_append_left _ ht)
    · by_cases hmine : m = (u, v)
      · subst hmine
        exact underway_passOn hwants hpass (.inr hcame)
      · refine .inr ⟨m, ?_, hcame⟩
        simp only [List.mem_append, List.mem_cons] at hm ⊢
        tauto

theorem FloodSteps.underway {n : Nat} {t : V}
    (hwants : ∀ x y, T.Adj x y → T.dist y t + 1 = T.dist x t → wants x y)
    (h : FloodSteps T wants n f f') (hunder : Underway T t f) : Underway T t f' := by
  induction h with
  | refl => exact hunder
  | step _ hstep ih => exact hstep.underway hwants (ih hunder)

end

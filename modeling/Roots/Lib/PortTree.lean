import Mathlib.Data.List.Infix
import Mathlib.Order.Lattice.Nat

/-!
# Roots.Lib.PortTree

Rooted trees whose edges are labelled, and the coordinates they give their nodes: the
labels on the way down from the root. Siblings have different labels, so a node is known
by its coordinates, and the distance of two nodes in the tree can be read off the
coordinates alone: it is what is left of them after the common prefix
(`PortTree.dist_eq`). From every node but the target some neighbour is closer
(`PortTree.exists_closer`), which is all that greedy routing needs.
-/

/-! ## The prefix metric -/

section Prefix

variable {α : Type*} [DecidableEq α]

/-- The length of the longest common prefix. -/
def commonPrefix (a b : List α) : Nat := ((a.zip b).takeWhile fun p => p.1 = p.2).length

/-- What is left of two lists after their common prefix. -/
def prefixDist (a b : List α) : Nat := b.length + a.length - 2 * commonPrefix a b

@[simp]
theorem commonPrefix_nil_left (b : List α) : commonPrefix [] b = 0 := rfl

@[simp]
theorem commonPrefix_nil_right (a : List α) : commonPrefix a [] = 0 := by simp [commonPrefix]

theorem commonPrefix_cons (x y : α) (a b : List α) :
    commonPrefix (x :: a) (y :: b) = if x = y then commonPrefix a b + 1 else 0 := by
  by_cases h : x = y <;> simp [commonPrefix, h]

theorem commonPrefix_le (a b : List α) :
    commonPrefix a b ≤ a.length ∧ commonPrefix a b ≤ b.length := by
  induction a generalizing b with
  | nil => simp
  | cons x a ih =>
    cases b with
    | nil => simp
    | cons y b =>
      obtain ⟨hleft, hright⟩ := ih b
      rw [commonPrefix_cons]
      split_ifs
      · simp only [List.length_cons]
        omega
      · exact ⟨Nat.zero_le _, Nat.zero_le _⟩

theorem commonPrefix_of_isPrefix {a b : List α} (h : b <+: a) : commonPrefix a b = b.length := by
  induction b generalizing a with
  | nil => simp
  | cons y b ih =>
    obtain ⟨rest, rfl⟩ := h
    rw [List.cons_append, commonPrefix_cons, if_pos rfl, ih (List.prefix_append b rest)]
    rfl

/-- One more label is common only if all labels before it are. -/
theorem commonPrefix_concat (a b : List α) (p : α) :
    commonPrefix a (b ++ [p]) = if b ++ [p] <+: a then b.length + 1 else commonPrefix a b := by
  split_ifs with h
  · rw [commonPrefix_of_isPrefix h, List.length_append, List.length_singleton]
  · induction a generalizing b with
    | nil => simp
    | cons x a ih =>
      cases b with
      | nil =>
        have hne : x ≠ p := fun heq => h (by simp [heq])
        simp [commonPrefix_cons, hne]
      | cons y b =>
        rw [List.cons_append, commonPrefix_cons, commonPrefix_cons]
        split_ifs with hxy
        · rw [ih b fun hb => h (by rw [List.cons_append, hxy]; exact List.prefix_cons_inj y |>.mpr hb)]
        · rfl

theorem prefixDist_eq_zero {a b : List α} (h : prefixDist a b = 0) : a = b := by
  induction a generalizing b with
  | nil =>
    cases b with
    | nil => rfl
    | cons => simp [prefixDist] at h
  | cons x a ih =>
    cases b with
    | nil => simp [prefixDist] at h
    | cons y b =>
      obtain ⟨hleft, hright⟩ := commonPrefix_le a b
      simp only [prefixDist, commonPrefix_cons, List.length_cons] at h
      split_ifs at h with hxy
      · rw [hxy, ih (show prefixDist a b = 0 by simp only [prefixDist]; omega)]

@[simp]
theorem prefixDist_self (a : List α) : prefixDist a a = 0 := by
  rw [prefixDist, commonPrefix_of_isPrefix List.prefix_rfl]
  omega

theorem prefixDist_le (a b : List α) : prefixDist a b ≤ b.length + a.length := Nat.sub_le _ _

/-- A label more on the way to `a` is a step closer. -/
theorem prefixDist_of_isPrefix {a b : List α} {p : α} (h : b ++ [p] <+: a) :
    prefixDist a (b ++ [p]) + 1 = prefixDist a b := by
  have hb : b <+: a := (List.prefix_append b [p]).trans h
  have hlen := h.length_le
  rw [List.length_append, List.length_singleton] at hlen
  rw [prefixDist, prefixDist, commonPrefix_of_isPrefix h, commonPrefix_of_isPrefix hb,
    List.length_append, List.length_singleton]
  omega

/-- A label more off that way is a step away. -/
theorem prefixDist_of_not_isPrefix {a b : List α} {p : α} (h : ¬ b ++ [p] <+: a) :
    prefixDist a (b ++ [p]) = prefixDist a b + 1 := by
  obtain ⟨hleft, hright⟩ := commonPrefix_le a b
  rw [prefixDist, prefixDist, commonPrefix_concat, if_neg h, List.length_append,
    List.length_singleton]
  omega

end Prefix

/-! ## Trees -/

/-- A rooted tree on `V` whose edges are labelled with `P`, given by the parent of each node
and the label of the edge to it. -/
structure PortTree (V P : Type*) where
  root : V
  parent : V → V
  port : V → P
  depth : V → Nat
  parent_root : parent root = root
  depth_root : depth root = 0
  depth_parent : ∀ v, v ≠ root → depth v = depth (parent v) + 1
  /-- Siblings have different ports. -/
  port_inj : ∀ u v, u ≠ root → v ≠ root → parent u = parent v → port u = port v → u = v

namespace PortTree

variable {V P : Type*} (T : PortTree V P)

theorem inductionOn {motive : V → Prop} (hroot : motive T.root)
    (hstep : ∀ v, v ≠ T.root → motive (T.parent v) → motive v) (v : V) : motive v := by
  induction hn : T.depth v using Nat.strong_induction_on generalizing v with
  | _ n ih =>
    by_cases hv : v = T.root
    · rw [hv]
      exact hroot
    · have hdepth := T.depth_parent v hv
      exact hstep v hv (ih _ (by omega) _ rfl)

/-- The labels on the way down to a node at depth `n`. -/
def coordsAt : Nat → V → List P
  | 0, _ => []
  | n + 1, v => coordsAt n (T.parent v) ++ [T.port v]

/-- The coordinates of a node. -/
def coords (v : V) : List P := T.coordsAt (T.depth v) v

@[simp]
theorem coords_root : T.coords T.root = [] := by rw [coords, T.depth_root, coordsAt]

theorem coords_of_ne {v : V} (h : v ≠ T.root) : T.coords v = T.coords (T.parent v) ++ [T.port v] := by
  rw [coords, T.depth_parent v h, coordsAt, coords]

@[simp]
theorem length_coords (v : V) : (T.coords v).length = T.depth v := by
  induction v using T.inductionOn with
  | hroot => simp [T.depth_root]
  | hstep v hv ih => rw [T.coords_of_ne hv, List.length_append, ih, T.depth_parent v hv]; rfl

/-- A node is known by its coordinates. -/
theorem coords_injective : Function.Injective T.coords := by
  intro u
  induction u using T.inductionOn with
  | hroot =>
    intro v h
    by_contra hv
    rw [coords_root, T.coords_of_ne (Ne.symm hv)] at h
    simp at h
  | hstep u hu ih =>
    intro v h
    by_cases hv : v = T.root
    · rw [hv, coords_root, T.coords_of_ne hu] at h
      simp at h
    · rw [T.coords_of_ne hu, T.coords_of_ne hv] at h
      obtain ⟨hparent, hport⟩ := List.append_inj' h rfl
      exact T.port_inj u v hu hv (ih hparent) (by simpa using hport)

theorem mem_coords {v : V} {p : P} (h : p ∈ T.coords v) : ∃ u, u ≠ T.root ∧ p = T.port u := by
  induction v using T.inductionOn with
  | hroot => simp at h
  | hstep v hv ih =>
    rw [T.coords_of_ne hv, List.mem_append, List.mem_singleton] at h
    rcases h with h | h
    · exact ih h
    · exact ⟨v, hv, h⟩

/-! ## Neighbours -/

/-- There is an edge between the two nodes. -/
def Adj (u v : V) : Prop := (u ≠ T.root ∧ T.parent u = v) ∨ (v ≠ T.root ∧ T.parent v = u)

variable {T} in
theorem Adj.symm {u v : V} (h : T.Adj u v) : T.Adj v u := Or.symm h

/-- A walk of `n` edges. -/
inductive Walk : Nat → V → V → Prop where
  | refl (v : V) : Walk 0 v v
  | step {n : Nat} {u v w : V} : T.Adj u v → Walk n v w → Walk (n + 1) u w

/-- The distance in the tree: the length of a shortest walk. -/
noncomputable def dist (u v : V) : Nat := sInf { n | T.Walk n u v }

/-- Below a node whose coordinates begin those of `d`, a child is on the way to `d`. -/
theorem exists_child {v : V} (d : V) (h : T.coords v <+: T.coords d) (hne : v ≠ d) :
    ∃ u, u ≠ T.root ∧ T.parent u = v ∧ T.coords u <+: T.coords d := by
  induction d using T.inductionOn with
  | hroot =>
    rw [coords_root, List.prefix_nil] at h
    exact absurd (T.coords_injective (h.trans T.coords_root.symm)) hne
  | hstep d hd ih =>
    have hcoords := T.coords_of_ne hd
    rw [hcoords] at h
    rcases List.prefix_concat_iff.mp h with heq | hpre
    · exact absurd (T.coords_injective (heq.trans hcoords.symm)) hne
    · by_cases hv : v = T.parent d
      · exact ⟨d, hd, hv.symm, List.prefix_rfl⟩
      · obtain ⟨u, hu, hparent, hchild⟩ := ih hpre hv
        refine ⟨u, hu, hparent, hchild.trans ?_⟩
        rw [hcoords]
        exact List.prefix_append _ _

variable [DecidableEq P]

/-- From every node but `d`, a neighbour is a step closer to `d`. -/
theorem exists_closer {v d : V} (h : v ≠ d) :
    ∃ u, T.Adj v u ∧ prefixDist (T.coords d) (T.coords u) + 1 =
      prefixDist (T.coords d) (T.coords v) := by
  by_cases hpre : T.coords v <+: T.coords d
  · obtain ⟨u, hu, hparent, hchild⟩ := T.exists_child d hpre h
    refine ⟨u, .inr ⟨hu, hparent⟩, ?_⟩
    rw [T.coords_of_ne hu, hparent] at hchild ⊢
    exact prefixDist_of_isPrefix hchild
  · have hv : v ≠ T.root := by
      rintro rfl
      exact hpre (by rw [coords_root]; exact List.nil_prefix)
    refine ⟨T.parent v, .inl ⟨hv, rfl⟩, ?_⟩
    rw [T.coords_of_ne hv] at hpre ⊢
    exact (prefixDist_of_not_isPrefix hpre).symm

/-- Of a node and its parent, the node is closer exactly to what is below it. -/
theorem prefixDist_parent {v : V} (h : v ≠ T.root) (d : V) :
    if T.coords v <+: T.coords d then
      prefixDist (T.coords d) (T.coords v) + 1 = prefixDist (T.coords d) (T.coords (T.parent v))
    else
      prefixDist (T.coords d) (T.coords v) = prefixDist (T.coords d) (T.coords (T.parent v)) + 1 := by
  rw [T.coords_of_ne h]
  split_ifs with hpre
  · exact prefixDist_of_isPrefix hpre
  · exact prefixDist_of_not_isPrefix hpre

/-- An edge changes the distance to a third node by one. -/
theorem prefixDist_adj {u v : V} (h : T.Adj u v) (d : V) :
    prefixDist (T.coords d) (T.coords u) = prefixDist (T.coords d) (T.coords v) + 1 ∨
      prefixDist (T.coords d) (T.coords v) = prefixDist (T.coords d) (T.coords u) + 1 := by
  rcases h with ⟨hu, rfl⟩ | ⟨hv, rfl⟩
  · have := T.prefixDist_parent hu d
    split_ifs at this <;> omega
  · have := T.prefixDist_parent hv d
    split_ifs at this <;> omega

theorem prefixDist_le_of_walk {n : Nat} {u d : V} (h : T.Walk n u d) :
    prefixDist (T.coords d) (T.coords u) ≤ n := by
  induction h with
  | refl v => simp
  | @step n u v w hadj _ ih =>
    have := T.prefixDist_adj hadj w
    omega

theorem exists_walk (u d : V) : T.Walk (prefixDist (T.coords d) (T.coords u)) u d := by
  induction hn : prefixDist (T.coords d) (T.coords u) generalizing u with
  | zero =>
    rw [T.coords_injective (prefixDist_eq_zero hn)]
    exact .refl u
  | succ n ih =>
    have hne : u ≠ d := by
      rintro rfl
      simp at hn
    obtain ⟨v, hadj, hcloser⟩ := T.exists_closer hne
    exact .step hadj (ih v (by omega))

/-- **The coordinates give the distance in the tree.** -/
theorem dist_eq (u d : V) : T.dist u d = prefixDist (T.coords d) (T.coords u) := by
  refine le_antisymm (Nat.sInf_le (T.exists_walk u d)) ?_
  have hwalk : T.Walk (T.dist u d) u d := Nat.sInf_mem (s := { n | T.Walk n u d }) ⟨_, T.exists_walk u d⟩
  exact T.prefixDist_le_of_walk hwalk

@[simp]
theorem dist_self (v : V) : T.dist v v = 0 := by rw [T.dist_eq, prefixDist_self]

theorem exists_adj_dist {v d : V} (h : v ≠ d) : ∃ u, T.Adj v u ∧ T.dist u d + 1 = T.dist v d := by
  simp only [T.dist_eq]
  exact T.exists_closer h

variable {T} in
theorem Adj.dist {u v : V} (h : T.Adj u v) (d : V) :
    T.dist u d = T.dist v d + 1 ∨ T.dist v d = T.dist u d + 1 := by
  simp only [T.dist_eq]
  exact T.prefixDist_adj h d

/-- **A node has one neighbour on the way to `d`.** -/
theorem closer_unique {v a b d : V} (ha : T.Adj v a) (hb : T.Adj v b)
    (hcloser : T.dist a d + 1 = T.dist v d) (hcloser' : T.dist b d + 1 = T.dist v d) : a = b := by
  simp only [T.dist_eq] at hcloser hcloser'
  rcases ha with ⟨hv, rfl⟩ | ⟨ha, rfl⟩
  · have hup := T.prefixDist_parent hv d
    split_ifs at hup with hbelow
    · omega
    · rcases hb with ⟨-, rfl⟩ | ⟨hb, rfl⟩
      · rfl
      · -- A child of `v` is not on the way to a node that is not below `v`.
        have hdown := T.prefixDist_parent hb d
        split_ifs at hdown with hchild
        · rw [T.coords_of_ne hb] at hchild
          exact absurd ((List.prefix_append _ _).trans hchild) hbelow
        · omega
  · have hdown := T.prefixDist_parent ha d
    split_ifs at hdown with hchild
    · rcases hb with ⟨hv, rfl⟩ | ⟨hb, hparent⟩
      · have hup := T.prefixDist_parent hv d
        rw [T.coords_of_ne ha] at hchild
        rw [if_pos ((List.prefix_append _ _).trans hchild)] at hup
        omega
      · -- Two children above `d` have coordinates of the same length.
        have hdown' := T.prefixDist_parent hb d
        rw [hparent] at hdown'
        split_ifs at hdown' with hchild'
        · have hlen : (T.coords a).length = (T.coords b).length := by
            rw [T.length_coords, T.length_coords, T.depth_parent a ha, T.depth_parent b hb, hparent]
          exact T.coords_injective
            ((List.prefix_of_prefix_length_le hchild hchild' hlen.le).eq_of_length hlen)
        · omega
    · omega

end PortTree

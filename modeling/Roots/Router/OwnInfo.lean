import Mathlib.Data.List.MinMax
import Mathlib.Data.Prod.Lex
import Roots.Crypto.Sample
import Roots.Router.Fix

/-!
# Roots.Router.OwnInfo

Whether a node keeps its place in the tree. `expire` drops infos whose deadline has
passed, the node's own among them, and `fix` has to put it back. It does so at once if
some neighbour's answer can be used, or if `do_root2` is set; but `do_root2` is set when
a node starts and never again. **A maintenance tick loses the own info exactly if**
neither is the case (`mem_infos_maintain`): a root on its own is off the tree four
minutes after it started, and stays off.
-/

namespace Roots

open Prog RouterM Relation

namespace TreeState

/-! ## The parents on offer -/

/-- How `fix` ranks parents for a node without an info: by root, then by cost. -/
def Choice.rank (c : Choice) : ℕ ×ₗ ℕ := toLex (keyNat c.root, c.cost.toNat)

theorem Choice.rank_lt {c d : Choice} :
    c.rank < d.rank ↔ c.root < d.root ∨ (c.root = d.root ∧ c.cost < d.cost) := by
  rw [rank, rank, Prod.Lex.toLex_lt_toLex, keyNat_injective.eq_iff, UInt64.lt_iff_toNat_lt]
  rfl

/-- What one neighbour offers. -/
def offer (t : TreeState) (infos : Assoc Key Info) (links : LinkSet) (k : Key) : Choice :=
  let up := rootAndDists infos k
  ⟨up.1, k, satMul ((up.2.lookup up.1).getD maxU64) (t.cost links k)⟩

/-- What the neighbours that have answered and have an info offer, in key order. -/
def offers (t : TreeState) (infos : Assoc Key Info) (links : LinkSet) : List Choice :=
  ((sortKeys t.responses.keys).filter (· ∈ infos)).map (t.offer infos links)

/-- A walk up the tree only meets keys with infos. -/
theorem mem_rootLoop {infos : Assoc Key Info} {k : Key} : ∀ (fuel : Nat) (next root : Key)
    (dist : UInt64) (dists : Assoc Key UInt64),
    k ∈ (rootLoop infos fuel next root dist dists).2 → k ∈ dists ∨ k ∈ infos := by
  intro fuel
  induction fuel with
  | zero => exact fun _ _ _ _ h => .inl h
  | succ fuel ih =>
    intro next root dist dists h
    rw [rootLoop] at h
    split at h
    · exact .inl h
    · split at h
      · rename_i info hinfo
        rcases ih _ _ _ _ h with h | h
        · rcases (AList.mem_insert _).mp h with rfl | h
          · exact .inr (Assoc.mem_iff_lookup.mpr ⟨info, hinfo⟩)
          · exact .inl h
        · exact .inr h
      · exact .inl h

theorem mem_rootAndDists {infos : Assoc Key Info} {k dest : Key}
    (h : k ∈ (rootAndDists infos dest).2) : k ∈ infos :=
  (mem_rootLoop _ _ _ _ _ h).resolve_left (AList.notMem_empty k)

theorem le_satMul_two (c : UInt64) : c ≤ satMul c 2 := by
  have hc := c.toNat_lt
  rw [UInt64.le_iff_toNat_le, satMul, UInt64.toNat_ofNat']
  simp only [UInt64.reduceToNat]
  omega

/-- Without an own info, the scan keeps the lower rank. -/
theorem consider_of_absent {t : TreeState} {pubkey : Key} (hself : pubkey ∉ t.infos)
    (links : LinkSet) (best : Choice) (k : Key) :
    t.consider links pubkey best k =
      if k ∈ t.infos then
        if (t.offer t.infos links k).rank < best.rank then t.offer t.infos links k else best
      else best := by
  have hlookup : t.infos.lookup pubkey = none := AList.lookup_eq_none.mpr hself
  by_cases hk : k ∈ t.infos
  · have hloop : pubkey ∉ (rootAndDists t.infos k).2 := fun h => hself (mem_rootAndDists h)
    unfold consider
    rw [if_neg (not_not.mpr hk), if_pos hk]
    simp only [if_neg hloop, hlookup, Option.map_none, ne_eq, reduceCtorEq, not_false_eq_true,
      true_and]
    -- The refresh rule asks for more than the plain one.
    have hcost : ∀ c : UInt64, (t.refresh = true ∧ satMul c 2 < best.cost) ∨ c < best.cost ↔
        c < best.cost := fun c =>
      or_iff_right_of_imp fun h => UInt64.lt_of_le_of_lt (le_satMul_two c) h.2
    simp only [hcost]
    change (if (t.offer t.infos links k).root < best.root then t.offer t.infos links k
      else if ¬ (t.offer t.infos links k).root = best.root then best
      else if (t.offer t.infos links k).cost < best.cost then t.offer t.infos links k
      else best) = _
    generalize t.offer t.infos links k = c
    by_cases hlt : c.root < best.root
    · rw [if_pos hlt, if_pos (Choice.rank_lt.mpr (.inl hlt))]
    · by_cases heq : c.root = best.root
      · have hrank : c.rank < best.rank ↔ c.cost < best.cost :=
          Choice.rank_lt.trans ⟨fun h => (h.resolve_left hlt).2, fun h => .inr ⟨heq, h⟩⟩
        rw [if_neg hlt, if_neg (not_not.mpr heq)]
        simp only [hrank]
      · simp [Choice.rank_lt, heq, hlt]
  · unfold consider
    rw [if_pos hk, if_neg hk]

/-- A scan that keeps the first of the lowest elements is `argmin`. -/
theorem foldl_lt_eq_argmin {α β : Type} [LinearOrder β] (f : α → β) (l : List α) (a : α) :
    some (l.foldl (fun b c => if f c < f b then c else b) a) = (a :: l).argmin f := by
  have hscan : ∀ (l : List α) (a : α), some (l.foldl (fun b c => if f c < f b then c else b) a) =
      l.foldl (List.argAux fun b c => f b < f c) (some a) := by
    intro l
    induction l with
    | nil => exact fun _ => rfl
    | cons c l ih =>
      intro a
      rw [List.foldl_cons, List.foldl_cons, ih, List.argAux, apply_ite some]
  exact hscan l a

theorem select_eq_argmin {t : TreeState} {pubkey : Key} (hself : pubkey ∉ t.infos)
    (links : LinkSet) :
    some (t.select links pubkey) =
      (⟨pubkey, pubkey, maxU64⟩ :: t.offers t.infos links).argmin Choice.rank := by
  have hstart : t.startChoice links pubkey = ⟨pubkey, pubkey, maxU64⟩ := by
    unfold startChoice
    rw [AList.lookup_eq_none.mpr hself]
  rw [← foldl_lt_eq_argmin, select, hstart, offers, List.foldl_map, List.foldl_filter,
    funext₂ (consider_of_absent hself links)]
  simp only [decide_eq_true_eq]

/-- **The scan of `fix` without an own info** ends at the best offer if that leads to a
lower root than this node, and at this node otherwise. -/
theorem select_of_absent {t : TreeState} {pubkey : Key} (hself : pubkey ∉ t.infos)
    (links : LinkSet) (c : Choice) :
    (t.select links pubkey = c ∧ c.root ≠ pubkey) ↔
      (c ∈ (t.offers t.infos links).argmin Choice.rank ∧ c.root < pubkey) := by
  have hselect := select_eq_argmin hself links
  rw [List.argmin_cons] at hselect
  cases hbest : (t.offers t.infos links).argmin Choice.rank with
  | none =>
    rw [hbest] at hselect
    rw [Option.some.inj hselect]
    constructor
    · rintro ⟨rfl, hne⟩
      exact absurd rfl hne
    · rintro ⟨hmem, -⟩
      cases hmem
  | some c' =>
    simp only [hbest] at hselect
    rw [← apply_ite some] at hselect
    rw [Option.some.inj hselect, Option.mem_some_iff]
    constructor
    · rintro ⟨hc, hne⟩
      split at hc
      · rename_i hrank
        subst hc
        exact ⟨rfl, (Choice.rank_lt.mp hrank).resolve_right fun h => hne h.1⟩
      · subst hc
        exact absurd rfl hne
    · rintro ⟨rfl, hlt⟩
      refine ⟨if_pos (Choice.rank_lt.mpr (.inl hlt)), fun heq => ?_⟩
      rw [heq] at hlt
      exact lt_irrefl (keyNat pubkey) hlt

end TreeState

section

variable [Crypto]

/-! ## Regaining a place -/

theorem Move.mem_infos {w : World} {k : Key} (h : k ∈ w.stand.infos) (move : Move) :
    k ∈ (move.stand w).infos := by
  cases move with
  | stay | wait => exact h
  | follow => exact (AList.mem_insert _).mpr (.inr h)
  | root =>
    show k ∈ (becomeRoot w).2.stand.infos
    rw [becomeRoot_stand]
    split
    · exact (AList.mem_insert _).mpr (.inr h)
    · exact h

section Absent

variable {r : Router} (habsent : r.pubkey ∉ r.tree.infos)

include habsent

theorem Router.adopts_of_absent {ann : Announce} (hkey : ann.key = r.pubkey) :
    r.tree.adopts ann = true := by
  rw [TreeState.adopts, hkey, AList.lookup_eq_none.mpr habsent]

/-- Without an own info, `fix` always moves if it can. -/
theorem Router.move_of_absent (links : LinkSet) :
    r.move links =
      match r.tree.responses.lookup (r.tree.select links r.pubkey).parent with
      | some res =>
          if (r.tree.select links r.pubkey).root ≠ r.pubkey ∧
              (ownAnnounce r (r.tree.select links r.pubkey).parent res).check then
            .follow (r.tree.select links r.pubkey).parent res
          else r.fallback
      | none => r.fallback := by
  have hlookup : r.tree.infos.lookup r.pubkey = none := AList.lookup_eq_none.mpr habsent
  have hadopts : ∀ k res, r.tree.adopts (ownAnnounce r k res) = true := fun k res =>
    Router.adopts_of_absent habsent rfl
  cases hres : r.tree.responses.lookup (r.tree.select links r.pubkey).parent <;>
    simp only [Router.move, hlookup, hadopts, hres, Option.map_none, ne_eq, reduceCtorEq,
      not_false_eq_true, decide_true, Bool.or_true, if_true, and_true]

end Absent

/-- Some answer can be used, or the node may become a root. -/
def Router.Regains (r : Router) (infos : Assoc Key Info) (links : LinkSet) : Prop :=
  r.tree.doRoot2 = true ∨
    ∃ c ∈ (r.tree.offers infos links).argmin TreeState.Choice.rank, c.root < r.pubkey ∧
      ∃ res, r.tree.responses.lookup c.parent = some res ∧
        (ownAnnounce r c.parent res).check = true

/-- A node without an info has one after its move exactly if it can regain one. -/
theorem mem_infos_move {w : World} (habsent : w.router.pubkey ∉ w.router.tree.infos) (n : Nat) :
    w.router.pubkey ∈ ((w.router.move w.links).stand { w with tick := n }).infos ↔
      w.router.Regains w.router.tree.infos w.links := by
  have hfollow : ∀ k res, w.router.pubkey ∈ ((Move.follow k res).stand { w with tick := n }).infos :=
    fun k res => (AList.mem_insert _).mpr (.inl rfl)
  constructor
  · intro hmem
    cases hmove : w.router.move w.links with
    | stay | wait =>
      rw [hmove] at hmem
      exact absurd hmem habsent
    | root => exact .inl (Router.doRoot2_of_move_root hmove)
    | follow k res =>
      obtain ⟨rfl, hroot, hres, hcheck, -⟩ := Router.move_eq_follow hmove
      obtain ⟨hbest, hlt⟩ := (TreeState.select_of_absent habsent w.links _).mp ⟨rfl, hroot⟩
      exact .inr ⟨_, hbest, hlt, res, hres, hcheck⟩
  · rintro (hroot2 | ⟨c, hbest, hlt, res, hres, hcheck⟩)
    · have hfall : w.router.fallback = .root := if_pos hroot2
      rw [Router.move_of_absent habsent, hfall]
      have hroot : w.router.pubkey ∈ (Move.root.stand { w with tick := n }).infos := by
        show w.router.pubkey ∈ (becomeRoot { w with tick := n }).2.stand.infos
        rw [becomeRoot_stand, if_pos (Router.adopts_of_absent habsent rfl)]
        exact (AList.mem_insert _).mpr (.inl rfl)
      split
      · split
        · exact hfollow _ _
        · exact hroot
      · exact hroot
    · obtain ⟨rfl, hne⟩ := (TreeState.select_of_absent habsent w.links c).mpr ⟨hbest, hlt⟩
      rw [Router.move_of_absent habsent, hres]
      simp only [hne, hcheck, ne_eq, not_false_eq_true, and_self, if_true]
      exact hfollow _ _

/-! ## The own info over runs -/

/-- The node keeps its place at a maintenance tick that starts now: its own info is there
and its deadline has not passed, or it regains one from the infos that are still alive. -/
def World.KeepsPlace (w : World) : Prop :=
  w.router.pubkey ∈ w.router.tree.alive (w.env.now w.tick) ∨
    w.router.Regains (w.router.tree.alive (w.env.now w.tick)) w.links

/-- Expiry changes nothing a node regains its place from but the infos. -/
theorem regains_expired (w : World) (infos : Assoc Key Info) :
    w.expired.router.Regains infos w.links ↔ w.router.Regains infos w.links := by
  obtain ⟨hresponses, hroot2⟩ := w.router.tree.expire_answers (w.env.now w.tick)
  have hlinkCost : (w.router.tree.expire (w.env.now w.tick)).linkCost =
      w.router.tree.linkCost := by
    funext id
    simp only [TreeState.linkCost, (TreeState.expire_aged _ _).links]
  have hoffer : (w.router.tree.expire (w.env.now w.tick)).offer infos w.links =
      w.router.tree.offer infos w.links := by
    funext k
    simp only [TreeState.offer, TreeState.cost, hlinkCost]
  have hoffers : (w.router.tree.expire (w.env.now w.tick)).offers infos w.links =
      w.router.tree.offers infos w.links := by
    simp only [TreeState.offers, hoffer, hresponses]
  unfold Router.Regains
  simp only [World.expired, hoffers, hresponses, hroot2]
  rfl

theorem mem_infos_maintain {w : World} (hw : Inv .free w) :
    w.router.pubkey ∈ (maintain w).2.router.tree.infos ↔ w.KeepsPlace := by
  obtain ⟨n, hstand⟩ := maintain_stand hw
  have hinfos : w.expired.router.tree.infos = w.router.tree.alive (w.env.now w.tick) :=
    TreeState.expire_infos _ _
  change w.router.pubkey ∈ (maintain w).2.stand.infos ↔ _
  rw [hstand, World.KeepsPlace, ← hinfos, ← regains_expired]
  by_cases halive : w.router.pubkey ∈ w.expired.router.tree.infos
  · exact ⟨fun _ => .inl halive, fun _ =>
      Move.mem_infos (w := { w.expired with tick := n }) halive _⟩
  · refine (mem_infos_move halive n).trans ⟨.inr, fun h => h.resolve_left halive⟩

/-- **A node forgets its own place exactly at the ticks that start in a state from which
it cannot keep it**: in a run, its own info is there after every maintenance tick if and
only if it can be kept at each. -/
theorem own_info_kept_iff (seed : Key) (env : Env) (actions : List Action) :
    (∀ before, before ++ [.maintain] <+: actions →
      Crypto.verifyingKey seed ∈
        ((World.init seed env).run (before ++ [.maintain])).router.tree.infos) ↔
    ∀ before, before ++ [.maintain] <+: actions → ((World.init seed env).run before).KeepsPlace := by
  refine forall₂_congr fun before _ => ?_
  have hiff := mem_infos_maintain (World.inv_run seed env before)
  rw [World.pubkey_run] at hiff
  rw [World.run_append]
  exact hiff

end

section

attribute [local instance] Sample.lenient

/-- A node alone: its first tick makes it a root, and the second one, more than four
minutes later, leaves it without an info and without a way to get one. -/
theorem lone_root_forgets_itself :
    let w := (World.init (Sample.smallKey 9) (.even (seconds 100))).run [.maintain]
    Sample.smallKey 9 ∈ w.router.tree.infos ∧
      Sample.smallKey 9 ∉ (w.run [.maintain]).router.tree.infos ∧
      Sample.smallKey 9 ∉ (w.run [.maintain, .maintain, .maintain]).router.tree.infos := by
  decide +kernel

end

end Roots

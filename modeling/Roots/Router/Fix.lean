import Roots.Router.Rules.Driver

/-!
# Roots.Router.Fix

What one maintenance tick does to a node's place in the tree. `maintain` expires infos,
lets `fix` decide, and tidies up; **only the decision changes the place**. A `Move` is what
`fix` decided, `Router.move` says which one from the state alone, and `fix_eq` that `fix`
does just that. What a move leaves behind is read off the `Stand`, the part of the state
that parent selection depends on.
-/

namespace Roots

open Prog RouterM Relation

/-! ## Expiry -/

namespace TreeState

/-- The infos that outlive the time `now`. -/
def alive (t : TreeState) (now : Instant) : Assoc Key Info :=
  t.infos.retain fun k _ => (t.deadlines.lookup k).all (now < ·)

theorem infos_foldl_forget (keys : List Key) (t : TreeState) :
    (keys.foldl forget t).infos = t.infos.retain fun k _ => k ∉ keys := by
  induction keys generalizing t with
  | nil =>
    rw [Assoc.retain_congr (q := fun _ _ => true) _ (by simp), Assoc.retain_true]
    rfl
  | cons k keys ih =>
    rw [List.foldl_cons, ih, forget, Assoc.retain_erase]
    exact Assoc.retain_congr _ fun k' _ => by simp

theorem mem_dead {t : TreeState} {now : Instant} {k : Key} :
    k ∈ t.dead now ↔ ∃ d, t.deadlines.lookup k = some d ∧ d ≤ now := by
  simp only [dead, List.mem_map, List.mem_filter, decide_eq_true_eq, Prod.exists]
  constructor
  · rintro ⟨k', d, ⟨hmem, hle⟩, rfl⟩
    exact ⟨d, Assoc.mem_toList.mp hmem, hle⟩
  · rintro ⟨d, hlookup, hle⟩
    exact ⟨k, d, ⟨Assoc.mem_toList.mpr hlookup, hle⟩, rfl⟩

@[simp]
theorem refreshDue_infos (t : TreeState) (now : Instant) : (t.refreshDue now).infos = t.infos := by
  unfold refreshDue
  split
  · split <;> rfl
  · rfl

theorem expire_infos (t : TreeState) (now : Instant) : (t.expire now).infos = t.alive now := by
  rw [expire, refreshDue_infos, infos_foldl_forget]
  refine Assoc.retain_congr _ fun k _ => ?_
  rw [Bool.eq_iff_iff, decide_eq_true_iff, mem_dead]
  cases t.deadlines.lookup k <;> simp

/-- `expire` leaves the answers and the flag for becoming a root alone. -/
theorem expire_answers (t : TreeState) (now : Instant) :
    (t.expire now).responses = t.responses ∧ (t.expire now).doRoot2 = t.doRoot2 := by
  have hforget : ∀ (keys : List Key) (t : TreeState),
      (keys.foldl forget t).responses = t.responses ∧
        (keys.foldl forget t).doRoot2 = t.doRoot2 := by
    intro keys
    induction keys with
    | nil => exact fun _ => ⟨rfl, rfl⟩
    | cons k keys ih => exact fun t => ih (t.forget k)
  unfold expire refreshDue
  split
  · split <;> exact hforget _ _
  · exact hforget _ _

end TreeState

variable [Crypto]

/-! ## The stand of a node -/

/-- What parent selection depends on, the links and their costs apart. -/
structure Stand where
  key : Key
  pubkey : Key
  infos : Assoc Key Info
  deadlines : Assoc Key Instant
  responses : Assoc Key SigRes
  refresh : Bool
  doRoot1 : Bool
  doRoot2 : Bool
  selfRefreshAt : Option Instant

def World.stand (w : World) : Stand where
  key := w.router.key
  pubkey := w.router.pubkey
  infos := w.router.tree.infos
  deadlines := w.router.tree.deadlines
  responses := w.router.tree.responses
  refresh := w.router.tree.refresh
  doRoot1 := w.router.tree.doRoot1
  doRoot2 := w.router.tree.doRoot2
  selfRefreshAt := w.router.tree.selfRefreshAt

/-- The context in which the place in the tree does not change. -/
def Scope.still : Scope := { Scope.free with grows := False, adopts := False, ages := False }

theorem Step.stand_eq {w w' : World} (h : Step .still w w') : w'.stand = w.stand := by
  cases h with
  | adopt hgrows | responses hgrows | flags hgrows | selfRefresh hgrows => exact hgrows.elim
  | expire hages => exact hages.elim
  | _ => rfl

theorem stand_eq_of_walk {w w' : World} (h : ReflTransGen (Step .still) w w') :
    w'.stand = w.stand := by
  induction h with
  | refl => rfl
  | tail _ hstep ih => exact hstep.stand_eq.trans ih

theorem stand_eq_of_allows {α : Type} {m : RouterM α} (hm : (rules .still False).Allows m)
    {w : World} (hw : Inv .free w) : (m w).2.stand = w.stand :=
  stand_eq_of_walk ((hm w).walk ({ hw with } : Inv .still w))

/-- The answers go, the flags are cleared, and nothing else about the stand changes. -/
theorem settle_stand {w : World} (hw : Inv .free w) :
    (settle w).2.stand =
      { w.stand with responses := ∅, refresh := false, doRoot1 := false, doRoot2 := false } := by
  let w₁ : World := { w with
    router.tree.refresh := false, router.tree.doRoot1 := false, router.tree.doRoot2 := false }
  have hw₁ : Inv .free w₁ := hw.step (.flags trivial _ _ _)
  have hw₂ : Inv .free { w₁ with router.tree.responses := ∅ } :=
    hw₁.step (.responses trivial ∅ fun k res h => by cases h)
  exact stand_eq_of_allows (.forEach fun k _ => sendReq_allows trivial k) hw₂

/-! ## Announcing oneself -/

/-- The announce `become_root` would make now. -/
def World.rootClaim (w : World) : Announce :=
  rootAnnounce w.router
    { seq := match w.router.tree.infos.lookup w.router.pubkey with
        | some info => info.res.req.seq + 1
        | none => 1
      nonce := w.env.random w.tick }

theorem becomeRoot_run (w : World) :
    becomeRoot w =
      (.ok (), { w with
        tick := w.tick + 3
        router.tree :=
          { (w.router.tree.update w.router.pubkey w.rootClaim (w.env.now (w.tick + 1))).1 with
            selfRefreshAt := some (w.env.now (w.tick + 2) + treeRefresh) } }) := rfl

/-! ## What `fix` decides -/

/-- The outcomes of `fix`. -/
inductive Move where
  /-- Everything stays. -/
  | stay
  /-- The answer of a neighbour makes it the parent. -/
  | follow (parent : Key) (res : SigRes)
  /-- The node becomes a root. -/
  | root
  /-- `do_root1` is set. -/
  | wait

/-- The move if no answer is used. -/
def Router.fallback (r : Router) : Move :=
  if r.tree.doRoot2 then .root else if !r.tree.doRoot1 then .wait else .stay

/-- The move `fix` makes. -/
def Router.move (r : Router) (links : LinkSet) : Move :=
  let best := r.tree.select links r.pubkey
  if r.tree.refresh || r.tree.doRoot1 || r.tree.doRoot2 ||
      (r.tree.infos.lookup r.pubkey).map Info.parent ≠ some best.parent then
    match r.tree.responses.lookup best.parent with
    | some res =>
        if best.root ≠ r.pubkey ∧ (ownAnnounce r best.parent res).check ∧
            r.tree.adopts (ownAnnounce r best.parent res) then .follow best.parent res
        else r.fallback
    | none => r.fallback
  else .stay

/-- What is done about a move. -/
def Move.body (r : Router) : Move → RouterM Unit
  | .stay => return ()
  | .follow parent res => do
      let _ ← updateTree (ownAnnounce r parent res)
      settle
  | .root => do
      becomeRoot
      settle
  | .wait => modifyTree fun t => { t with doRoot1 := true }

theorem rootOrWait_eq (w : World) : rootOrWait w = w.router.fallback.body w.router w := by
  unfold rootOrWait Router.fallback
  rw [router, Prog.gets_bind]
  cases w.router.tree.doRoot2 <;> cases w.router.tree.doRoot1 <;> rfl

theorem useResponse_run (k : Key) (res : SigRes) (w : World) :
    useResponse k res w =
      if (ownAnnounce w.router k res).check then updateTree (ownAnnounce w.router k res) w
      else (.ok false, w) := by
  rw [useResponse, router, Prog.gets_bind]
  split <;> rfl

/-- An answer is followed if its announce checks and is adopted. -/
theorem useResponse_bind_eq (k : Key) (res : SigRes) (w : World) :
    ∃ n, (do
        let used ← useResponse k res
        if used then settle else rootOrWait : RouterM Unit) w =
      (if (ownAnnounce w.router k res).check ∧ w.router.tree.adopts (ownAnnounce w.router k res) then
        Move.follow k res else w.router.fallback).body w.router { w with tick := n } := by
  have hrun := useResponse_run k res w
  by_cases hcheck : (ownAnnounce w.router k res).check = true
  · rw [if_pos hcheck, updateTree_run] at hrun
    by_cases hadopts : w.router.tree.adopts (ownAnnounce w.router k res) = true
    · refine ⟨w.tick, ?_⟩
      rw [if_pos ⟨hcheck, hadopts⟩, Move.body, run_bind_ok (updateTree_run _ _)]
      rw [hadopts] at hrun
      rw [run_bind_ok hrun]
      rfl
    · refine ⟨w.tick + 1, ?_⟩
      have hsame : ∀ t, (w.router.tree.update w.router.pubkey (ownAnnounce w.router k res) t).1 =
          w.router.tree := fun t => by rw [TreeState.update, if_neg hadopts]
      rw [(Bool.not_eq_true _).mp hadopts, hsame] at hrun
      rw [if_neg fun h => hadopts h.2, run_bind_ok hrun, if_neg Bool.false_ne_true]
      exact rootOrWait_eq _
  · rw [if_neg hcheck] at hrun
    refine ⟨w.tick, ?_⟩
    rw [if_neg fun h => hcheck h.1, run_bind_ok hrun, if_neg Bool.false_ne_true]
    exact rootOrWait_eq _

/-- **`fix` does its move**, and at most one clock reading is made before. -/
theorem fix_eq (w : World) :
    ∃ n, fix w = (w.router.move w.links).body w.router { w with tick := n } := by
  unfold fix Router.move
  rw [router, Prog.gets_bind, links, Prog.gets_bind]
  by_cases hgate : (w.router.tree.refresh || w.router.tree.doRoot1 || w.router.tree.doRoot2 ||
      (w.router.tree.infos.lookup w.router.pubkey).map Info.parent ≠
        some (w.router.tree.select w.links w.router.pubkey).parent) = true
  · rw [if_pos hgate, if_pos hgate]
    cases hres : w.router.tree.responses.lookup
      (w.router.tree.select w.links w.router.pubkey).parent with
    | none => exact ⟨w.tick, rootOrWait_eq w⟩
    | some res =>
      by_cases hroot : (w.router.tree.select w.links w.router.pubkey).root ≠ w.router.pubkey
      · obtain ⟨n, hn⟩ := useResponse_bind_eq _ res w
        refine ⟨n, (congrFun (if_pos hroot) w).trans (hn.trans ?_)⟩
        simp only [hroot, ne_eq, not_false_eq_true, true_and]
      · refine ⟨w.tick, (congrFun (if_neg hroot) w).trans ((rootOrWait_eq w).trans ?_)⟩
        simp only [hroot, false_and, if_false]
  · rw [if_neg hgate, if_neg hgate]
    exact ⟨w.tick, rfl⟩

/-! ## What a move leaves behind -/

/-- An announce is adopted at a time. -/
def Stand.adopt (s : Stand) (ann : Announce) (now : Instant) : Stand :=
  { s with
    infos := s.infos.insert ann.key ann.info
    deadlines := s.deadlines.insert ann.key
      (now + if ann.key = s.pubkey then treeRefresh else treeTimeout) }

/-- The end of a move that changed the own info. -/
def Stand.settled (s : Stand) : Stand :=
  { s with responses := ∅, refresh := false, doRoot1 := false, doRoot2 := false }

theorem updateTree_stand (ann : Announce) (w : World) :
    (updateTree ann w).2.stand =
      if w.router.tree.adopts ann then w.stand.adopt ann (w.env.now w.tick) else w.stand := by
  rw [updateTree_run, TreeState.update]
  split <;> rfl

theorem becomeRoot_stand (w : World) :
    (becomeRoot w).2.stand =
      { (if w.router.tree.adopts w.rootClaim then
          w.stand.adopt w.rootClaim (w.env.now (w.tick + 1)) else w.stand) with
        selfRefreshAt := some (w.env.now (w.tick + 2) + treeRefresh) } := by
  rw [becomeRoot_run, TreeState.update]
  split <;> rfl

theorem bind_settle_stand {α : Type} {m : RouterM α} {w : World} (hw : Inv .free w)
    (hm : Obeys (rules .free False) m w) {a : α} (hok : (m w).1 = .ok a) :
    ((do let _ ← m; settle : RouterM Unit) w).2.stand = (m w).2.stand.settled := by
  have hrun : m w = (.ok a, (m w).2) := Prod.ext hok rfl
  rw [run_bind_ok hrun]
  exact settle_stand (hm.inv hw)

/-- The stand after each move. -/
def Move.stand (w : World) : Move → Stand
  | .stay => w.stand
  | .follow parent res =>
      (w.stand.adopt (ownAnnounce w.router parent res) (w.env.now w.tick)).settled
  | .root => (becomeRoot w).2.stand.settled
  | .wait => { w.stand with doRoot1 := true }

theorem Move.lookup_follow (w : World) (parent : Key) (res : SigRes) :
    ((Move.follow parent res).stand w).infos.lookup w.router.pubkey =
      some (ownAnnounce w.router parent res).info := AList.lookup_insert _

theorem Move.lookup_root (w : World) :
    (Move.root.stand w).infos.lookup w.router.pubkey =
      if w.router.tree.adopts w.rootClaim then some w.rootClaim.info
      else w.router.tree.infos.lookup w.router.pubkey := by
  show (becomeRoot w).2.stand.infos.lookup w.router.pubkey = _
  rw [becomeRoot_stand]
  split
  · exact AList.lookup_insert _
  · rfl

/-- What is known about an answer that is followed. -/
theorem Router.move_eq_follow {r : Router} {links : LinkSet} {k : Key} {res : SigRes}
    (h : r.move links = .follow k res) :
    k = (r.tree.select links r.pubkey).parent ∧ (r.tree.select links r.pubkey).root ≠ r.pubkey ∧
      r.tree.responses.lookup k = some res ∧ (ownAnnounce r k res).check = true ∧
      r.tree.adopts (ownAnnounce r k res) = true := by
  have hfall : r.fallback ≠ .follow k res := by
    unfold Router.fallback
    split
    · exact nofun
    · split <;> exact nofun
  simp only [Router.move] at h
  split at h
  · split at h
    · rename_i res' hres
      split at h
      · rename_i hcond
        cases h
        exact ⟨rfl, hcond.1, hres, hcond.2.1, hcond.2.2⟩
      · exact absurd h hfall
    · exact absurd h hfall
  · cases h

theorem Router.doRoot2_of_move_root {r : Router} {links : LinkSet} (h : r.move links = .root) :
    r.tree.doRoot2 = true := by
  have hfall : r.fallback = .root → r.tree.doRoot2 = true := by
    unfold Router.fallback
    intro h
    split at h
    · assumption
    · split at h <;> cases h
  simp only [Router.move] at h
  split at h
  · split at h
    · split at h
      · cases h
      · exact hfall h
    · exact hfall h
  · cases h

theorem Move.body_stand {w : World} (hw : Inv .free w) (move : Move)
    (hfollow : ∀ k res, move = .follow k res → (ownAnnounce w.router k res).check = true ∧
      w.router.tree.adopts (ownAnnounce w.router k res) = true) :
    (move.body w.router w).2.stand = move.stand w := by
  cases move with
  | stay => rfl
  | follow k res =>
    obtain ⟨hcheck, hadopts⟩ := hfollow k res rfl
    have hobeys : Obeys (rules .free False) (updateTree (ownAnnounce w.router k res)) w :=
      updateTree_obeys trivial (.inl hcheck)
    refine (bind_settle_stand hw hobeys (by rw [updateTree_run])).trans ?_
    rw [updateTree_stand, if_pos hadopts]
    rfl
  | root => exact bind_settle_stand hw (becomeRoot_allows trivial trivial w) rfl
  | wait => rfl

/-- The world in which `fix` decides: time has passed for the tree. -/
def World.expired (w : World) : World :=
  { w with
    tick := w.tick + 1
    router.tree := w.router.tree.expire (w.env.now w.tick) }

theorem Inv.expired {w : World} (hw : Inv .free w) : Inv .free w.expired :=
  hw.of_allows (expireTree_allows trivial) rfl

/-- **The stand after a maintenance tick** is the one after its move. -/
theorem maintain_stand {w : World} (hw : Inv .free w) :
    ∃ n, (maintain w).2.stand =
      (w.expired.router.move w.links).stand { w.expired with tick := n } := by
  obtain ⟨n, hfix⟩ := fix_eq w.expired
  refine ⟨n, ?_⟩
  have hn : Inv .free { w.expired with tick := n } := { hw.expired with }
  have hbody := Move.body_stand hn (w.expired.router.move w.links) fun k res h =>
    (Router.move_eq_follow h).2.2.2
  rw [← hbody]
  have hrun : maintain w = ((do fix; tidy : RouterM Unit) w.expired) := rfl
  rw [hrun, run_bind, hfix]
  split
  · rename_i u w' hok
    have hw' : Inv .free w' := hw.expired.of_allows (fix_allows trivial trivial trivial) (hfix.trans hok)
    have htidy : (tidy w').2.stand = w'.stand :=
      stand_eq_of_allows (tidy_allows False.elim trivial trivial trivial trivial) hw'
    exact htidy.trans (congrArg (fun r => r.2.stand) hok.symm)
  · rename_i e w' herr
    exact congrArg (fun r => r.2.stand) herr.symm

end Roots

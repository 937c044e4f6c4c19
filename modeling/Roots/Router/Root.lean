import Roots.Lib.Counter
import Roots.Router.Parent

/-!
# Roots.Router.Root

When a node that nothing leads to a better root becomes a root again. `fix` decides for it
in two stages, `do_root1` and then `do_root2`, but **only the start of the node sets the
second flag**, and the first settled info clears it. A tick therefore ends with the node
as its own parent exactly if it already was and its info is still alive, or if the flag is
still up (`selfRooted_maintain`): a node that has lost its parent stays on it.
-/

namespace Roots

open Prog RouterM
open Sample (smallKey)

section

variable [Crypto]

/-- The node's own info names the node itself as the parent. -/
def World.SelfRooted (w : World) : Prop :=
  (w.router.tree.infos.lookup w.router.pubkey).map Info.parent = some w.router.pubkey

/-- Neither the parent, if it is linked, nor an eligible neighbour leads to a lower root. -/
structure World.Topmost (w : World) : Prop where
  parent : ∀ info, w.router.tree.infos.lookup w.router.pubkey = some info →
    w.links.hasPeer info.parent = true → ¬ w.router.tree.rootOf w.router.pubkey < w.router.pubkey
  neighbours : ∀ k, w.router.tree.Eligible w.router.pubkey k →
    ¬ w.router.tree.rootOf k < w.router.pubkey

/-- The node may become a root: `do_root2` is up, and a sequence number is left for the
announce. -/
def World.MayRoot (w : World) : Prop :=
  w.router.tree.doRoot2 = true ∧ ∀ info, w.router.tree.infos.lookup w.router.pubkey = some info →
    info.res.req.seq ≠ maxU64

/-! ## One tick -/

/-- The scan of a topmost node ends at its own key as the root. -/
theorem World.Topmost.select_root {w : World} (h : w.Topmost) :
    (w.router.tree.select w.links w.router.pubkey).root = w.router.pubkey := by
  have hsel := w.router.tree.selected_select w.links w.router.pubkey
  rcases hsel.source with heq | ⟨hel, hroot⟩
  · rw [heq]
    rcases w.router.tree.startChoice_cases w.links w.router.pubkey with
      hself | ⟨info, hinfo, hpeer, hlt, -⟩
    · rw [hself]
    · exact absurd hlt (h.parent info hinfo hpeer)
  · have hle := le_trans (α := Nat) hsel.le_start (w.router.tree.startChoice_root_le _ _)
    have hge := not_lt (α := Nat) |>.mp (h.neighbours _ hel)
    exact keyNat_injective (le_antisymm hle (hroot ▸ hge))

/-- The move of a topmost node: it becomes a root with `do_root2`, and without it its info
stays as it is. -/
theorem World.Topmost.move_eq {w : World} (h : w.Topmost) :
    if w.router.tree.doRoot2 then w.router.move w.links = .root
    else w.router.move w.links = .stay ∨ w.router.move w.links = .wait := by
  have hmove : w.router.move w.links = w.router.fallback ∨
      (w.router.tree.doRoot2 = false ∧ w.router.move w.links = .stay) := by
    simp only [Router.move, h.select_root, ne_eq, not_true_eq_false, false_and, if_false]
    split
    · left
      split <;> rfl
    · rename_i hgate
      simp only [Bool.or_eq_true, not_or, Bool.not_eq_true] at hgate
      exact .inr ⟨hgate.1.2, rfl⟩
  have hfall : w.router.fallback =
      if w.router.tree.doRoot2 then .root else if !w.router.tree.doRoot1 then .wait else .stay := rfl
  rcases hmove with hmove | ⟨hflag, hmove⟩
  · rw [hmove, hfall]
    cases w.router.tree.doRoot2 <;> cases w.router.tree.doRoot1 <;> simp
  · simp [hflag, hmove]

theorem doRoot2_expired (w : World) :
    w.expired.router.tree.doRoot2 = w.router.tree.doRoot2 :=
  (w.router.tree.expire_answers (w.env.now w.tick)).2

theorem World.Topmost.move_expired {w : World} (h : w.expired.Topmost) :
    if w.router.tree.doRoot2 then w.expired.router.move w.links = .root
    else w.expired.router.move w.links = .stay ∨ w.expired.router.move w.links = .wait := by
  rw [← doRoot2_expired]
  exact h.move_eq

/-- The announce of a root supersedes the own info while there are sequence numbers. -/
theorem adopts_rootClaim (w : World) :
    w.router.tree.adopts w.rootClaim = true ↔
      ∀ info, w.router.tree.infos.lookup w.router.pubkey = some info →
        info.res.req.seq ≠ maxU64 := by
  have hkey : w.rootClaim.key = w.router.pubkey := rfl
  unfold TreeState.adopts
  rw [hkey]
  cases hinfo : w.router.tree.infos.lookup w.router.pubkey with
  | none => simp
  | some info =>
    have hseq : w.rootClaim.res.req.seq = info.res.req.seq + 1 := by
      simp only [World.rootClaim, hinfo]
      rfl
    simp [TreeState.supersedes, hseq, Counter.lt_add_one_iff, maxU64]

/-- **A tick of a topmost node** leaves it its own parent exactly if it is one already, or
may become one. -/
theorem selfRooted_maintain {w : World} (hw : Inv .free w) (h : w.expired.Topmost) :
    (maintain w).2.SelfRooted ↔ w.expired.SelfRooted ∨ w.expired.MayRoot := by
  obtain ⟨n, hstand⟩ := maintain_stand hw
  have hsame : ∀ s : Stand, s.pubkey = w.router.pubkey →
      (maintain w).2.stand = s →
      ((maintain w).2.SelfRooted ↔ (s.infos.lookup w.router.pubkey).map Info.parent =
        some w.router.pubkey) := by
    rintro s hs rfl
    rw [← hs]
    rfl
  have hmove := h.move_expired
  cases hflag : w.router.tree.doRoot2 with
  | false =>
    simp only [hflag, Bool.false_eq_true, if_false] at hmove
    have hno : ¬ w.expired.MayRoot := fun hmay => by
      cases hflag.symm.trans ((doRoot2_expired w).symm.trans hmay.1)
    rw [or_iff_left hno]
    rcases hmove with hmove | hmove <;> rw [hmove] at hstand <;> exact hsame _ rfl hstand
  | true =>
    simp only [hflag, if_true] at hmove
    rw [hmove] at hstand
    refine (hsame _ rfl hstand).trans ?_
    have hclaim : w.expired.MayRoot ↔
        w.expired.router.tree.adopts (World.rootClaim { w.expired with tick := n }) = true := by
      rw [adopts_rootClaim { w.expired with tick := n }]
      exact and_iff_right ((doRoot2_expired w).trans hflag)
    have hlookup := Move.lookup_root { w.expired with tick := n }
    change ((Move.root.stand { w.expired with tick := n }).infos.lookup w.expired.router.pubkey).map
      Info.parent = some w.expired.router.pubkey ↔ _
    rw [hlookup, hclaim]
    split
    · exact iff_of_true rfl (.inr ‹_›)
    · exact (or_iff_left ‹_›).symm

/-- A node that stays or waits has `do_root2` down. -/
theorem Router.doRoot2_eq_false {r : Router} {links : LinkSet}
    (h : r.move links = .stay ∨ r.move links = .wait) : r.tree.doRoot2 = false := by
  by_contra hflag
  rw [Bool.not_eq_false] at hflag
  have hfall : r.fallback = .root := if_pos hflag
  simp only [Router.move, hflag, Bool.or_true, Bool.true_or, if_true, hfall] at h
  split at h
  · split at h <;> simp at h
  · simp at h

/-- After a tick `do_root2` is down. -/
theorem doRoot2_maintain {w : World} (hw : Inv .free w) :
    (w.act .maintain).router.tree.doRoot2 = false := by
  obtain ⟨n, hstand⟩ := maintain_stand hw
  have hflag : (w.act .maintain).router.tree.doRoot2 = (maintain w).2.stand.doRoot2 := rfl
  rw [hflag, hstand]
  cases hmove : w.expired.router.move w.links with
  | follow | root => rfl
  | stay => exact Router.doRoot2_eq_false (.inl hmove)
  | wait => exact Router.doRoot2_eq_false (.inr hmove)

/-! ## Three ticks -/

/-- A tick that starts now leaves a topmost node its own parent: it is already, with an info
that is still alive, or may become one. -/
def World.KeepsRoot (w : World) : Prop := w.expired.SelfRooted ∨ w.expired.MayRoot

/-- Expiry does not make a node its own parent. -/
theorem World.SelfRooted.of_expired {w : World} (h : w.expired.SelfRooted) : w.SelfRooted := by
  have hinfos : w.expired.router.tree.infos = w.router.tree.alive (w.env.now w.tick) :=
    TreeState.expire_infos _ _
  unfold World.SelfRooted at h
  rw [hinfos, TreeState.alive, Assoc.lookup_retain] at h
  obtain ⟨info, hinfo, hparent⟩ := Option.map_eq_some_iff.mp h
  exact Option.map_eq_some_iff.mpr ⟨info, (Option.filter_eq_some_iff.mp hinfo).1, hparent⟩

/-- After a first tick only the own info counts. -/
theorem selfRooted_of_keepsRoot {w : World} (hw : Inv .free w) (h : (w.act .maintain).KeepsRoot) :
    (w.act .maintain).SelfRooted := by
  rcases h with h | ⟨hflag, -⟩
  · exact h.of_expired
  · rw [doRoot2_expired] at hflag
    cases (doRoot2_maintain hw).symm.trans hflag

/-- **Three ticks leave a node that nothing leads to a lower root as its own parent if and
only if each of them can.** -/
theorem selfRooted_three_ticks {w : World} (hw : w.Reachable)
    (h₁ : w.expired.Topmost) (h₂ : (w.run [.maintain]).expired.Topmost)
    (h₃ : (w.run [.maintain, .maintain]).expired.Topmost) :
    (w.run [.maintain, .maintain, .maintain]).SelfRooted ↔
      w.KeepsRoot ∧ (w.run [.maintain]).KeepsRoot ∧ (w.run [.maintain, .maintain]).KeepsRoot := by
  have hw₁ := hw.act .maintain
  have hw₂ := hw₁.act .maintain
  have hfirst := selfRooted_maintain hw.inv h₁
  have hsecond := selfRooted_maintain hw₁.inv h₂
  have hthird := selfRooted_maintain hw₂.inv h₃
  constructor
  · intro h
    have hkeeps₃ := hthird.mp h
    have hkeeps₂ := hsecond.mp (selfRooted_of_keepsRoot hw₁.inv hkeeps₃)
    exact ⟨hfirst.mp (selfRooted_of_keepsRoot hw.inv hkeeps₂), hkeeps₂, hkeeps₃⟩
  · exact fun h => hthird.mpr h.2.2

/-! ## Losing the parent -/

omit [Crypto] in
theorem LinkSet.hasPeer_eq_false {links : LinkSet} (h : links.ids = []) (k : Key) :
    links.hasPeer k = false := by
  rw [LinkSet.hasPeer, List.map_eq_nil_iff.mp h]
  rfl

/-- A node without links and answers. -/
structure World.Alone (w : World) : Prop where
  ids : w.links.ids = []
  responses : w.router.tree.responses.keys = []

theorem World.Alone.topmost {w : World} (h : w.Alone) : w.Topmost where
  parent info _ hpeer := by
    rw [LinkSet.hasPeer_eq_false h.ids] at hpeer
    cases hpeer
  neighbours k hel := by
    have hk : k ∈ w.router.tree.responses.keys := AList.mem_keys.mpr hel.1
    rw [h.responses] at hk
    cases hk

theorem World.Alone.expired {w : World} (h : w.Alone) : w.expired.Alone where
  ids := h.ids
  responses := by
    rw [show w.expired.router.tree.responses = w.router.tree.responses from
      (w.router.tree.expire_answers (w.env.now w.tick)).1]
    exact h.responses

/-- A node that is alone stays so over a tick, and with `do_root2` down it does not become
its own parent. -/
theorem World.Alone.maintain {w : World} (h : w.Alone) (hw : Inv .free w)
    (hflag : w.router.tree.doRoot2 = false) (hroot : ¬ w.SelfRooted) :
    (w.act .maintain).Alone ∧ ¬ (w.act .maintain).SelfRooted := by
  have htop := h.expired.topmost
  refine ⟨⟨?_, ?_⟩, fun hself => ?_⟩
  · have hwired : Wired w (w.act .maintain) :=
      .of_allows (S := .free)
        (maintain_allows False.elim trivial trivial trivial trivial trivial trivial trivial trivial)
        hw rfl
    exact List.subset_nil.mp (h.ids ▸ hwired.ids)
  · obtain ⟨n, hstand⟩ := maintain_stand hw
    have hmove := htop.move_expired
    rw [hflag] at hmove
    have hanswers : (w.act .maintain).stand.responses = w.expired.router.tree.responses := by
      refine (congrArg Stand.responses hstand).trans ?_
      rcases hmove with hmove | hmove <;> rw [hmove] <;> rfl
    exact (congrArg AList.keys hanswers).trans h.expired.responses
  · rcases (selfRooted_maintain hw htop).mp hself with hself | ⟨hup, -⟩
    · exact hroot hself.of_expired
    · rw [doRoot2_expired, hflag] at hup
      cases hup

/-- A node that has lost its links, has no answers and is not its own parent never becomes
its own parent. -/
theorem World.Alone.not_selfRooted_run {w : World} (h : w.Alone) (hw : w.Reachable)
    (hflag : w.router.tree.doRoot2 = false) (hroot : ¬ w.SelfRooted) (n : Nat) :
    ¬ (w.run (List.replicate n .maintain)).SelfRooted := by
  induction n generalizing w with
  | zero => exact hroot
  | succ n ih =>
    obtain ⟨halone, hroot⟩ := h.maintain hw.inv hflag hroot
    exact ih halone (hw.act _) (doRoot2_maintain hw.inv) hroot

end

/-! ## Runs -/

section

attribute [local instance] Sample.lenient

/-- The node with key 9 has followed the root with key 3 and lost the link to it. -/
def lostParent : World := answered.run [.maintain, .disconnect 0]

/-- Nothing leads it to a better root, and three ticks later it is still on its lost
parent. -/
theorem lost_parent_is_kept :
    lostParent.Reachable ∧ lostParent.Topmost ∧
      ¬ (lostParent.run [.maintain, .maintain, .maintain]).SelfRooted := by
  have hreachable : lostParent.Reachable := (answered_reachable.act .maintain).act (.disconnect 0)
  have hlost : lostParent.links.ids = [] ∧ lostParent.router.tree.responses.keys = [] ∧
      lostParent.router.tree.doRoot2 = false ∧
      (lostParent.router.tree.infos.lookup lostParent.router.pubkey).map Info.parent ≠
        some lostParent.router.pubkey := by decide +kernel
  obtain ⟨hids, hanswers, hflag, hroot⟩ := hlost
  have halone : lostParent.Alone := ⟨hids, hanswers⟩
  exact ⟨hreachable, halone.topmost, halone.not_selfRooted_run hreachable hflag hroot 3⟩

/-- A fresh node becomes a root at its first tick and stays one. -/
theorem selfRooted_three_ticks_fresh :
    ((World.init (smallKey 9) (.even 1)).run [.maintain, .maintain, .maintain]).SelfRooted ∧
      (World.init (smallKey 9) (.even 1)).KeepsRoot := by
  have hreachable : (World.init (smallKey 9) (.even 1)).Reachable := ⟨_, _, [], rfl⟩
  have hroot : ((World.init (smallKey 9) (.even 1)).run
      [.maintain, .maintain, .maintain]).SelfRooted := by
    unfold World.SelfRooted
    decide +kernel
  have halone : ∀ n < 3, ((World.init (smallKey 9) (.even 1)).run
      (List.replicate n .maintain)).links.ids = [] ∧
      ((World.init (smallKey 9) (.even 1)).run
        (List.replicate n .maintain)).router.tree.responses.keys = [] := by decide +kernel
  have htop : ∀ n < 3, ((World.init (smallKey 9) (.even 1)).run
      (List.replicate n .maintain)).expired.Topmost := fun n hn =>
    World.Alone.topmost (World.Alone.expired ⟨(halone n hn).1, (halone n hn).2⟩)
  exact ⟨hroot, ((selfRooted_three_ticks hreachable (htop 0 (by omega)) (htop 1 (by omega))
    (htop 2 (by omega))).mp hroot).1⟩

end

end Roots

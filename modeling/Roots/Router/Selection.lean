import Roots.Router.Parent

/-!
# Roots.Router.Selection

Parent selection, seen from its result: the root a node's infos lead to before and after
`fix`. The parent that is followed leads to the root the scan found for it, **also from the
node itself** (`rootOf_insert`): a neighbour whose way up meets this node is never a
candidate, so pointing at it adds one key to its way up and changes nothing else. What the
scan says about roots is then what the tables say after `fix`, and without a reason to move
the scan ends where it started (`select_eq_startChoice`).
-/

namespace Roots

open Prog RouterM
open Sample (smallKey)

namespace TreeState

/-! ## Walks and new infos -/

/-- A walk keeps the keys it has met. -/
theorem mem_rootLoop_of_mem {infos : Assoc Key Info} {k : Key} : ∀ (fuel : Nat) (next root : Key)
    (dist : UInt64) (dists : Assoc Key UInt64), k ∈ dists →
      k ∈ (rootLoop infos fuel next root dist dists).2 := by
  intro fuel
  induction fuel with
  | zero => exact fun _ _ _ _ h => h
  | succ fuel ih =>
    intro next root dist dists h
    rw [rootLoop]
    split
    · exact h
    · split
      · exact ih _ _ _ _ ((AList.mem_insert _).mpr (.inr h))
      · exact h

/-- A key with an info is on its own way up. -/
theorem mem_rootAndDists_self {infos : Assoc Key Info} {k : Key} (hk : k ∈ infos) :
    k ∈ (rootAndDists infos k).2 := by
  obtain ⟨info, hinfo⟩ := Assoc.mem_iff_lookup.mp hk
  rw [rootAndDists, rootLoop, if_neg (AList.notMem_empty k), hinfo]
  exact mem_rootLoop_of_mem _ _ _ _ _ ((AList.mem_insert _).mpr (.inl rfl))

/-- A walk that has met a key ends at one it has met. -/
theorem root_mem_rootLoop {infos : Assoc Key Info} : ∀ (fuel : Nat) (next root : Key)
    (dist : UInt64) (dists : Assoc Key UInt64), root ∈ dists →
      (rootLoop infos fuel next root dist dists).1 ∈
        (rootLoop infos fuel next root dist dists).2 := by
  intro fuel
  induction fuel with
  | zero => exact fun _ _ _ _ h => h
  | succ fuel ih =>
    intro next root dist dists h
    rw [rootLoop]
    split
    · exact h
    · split
      · exact ih _ _ _ _ ((AList.mem_insert _).mpr (.inl rfl))
      · exact h

theorem root_mem_rootAndDists {infos : Assoc Key Info} {k : Key} (hk : k ∈ infos) :
    (rootAndDists infos k).1 ∈ (rootAndDists infos k).2 := by
  obtain ⟨info, hinfo⟩ := Assoc.mem_iff_lookup.mp hk
  rw [rootAndDists, rootLoop, if_neg (AList.notMem_empty k), hinfo]
  exact root_mem_rootLoop _ _ _ _ _ ((AList.mem_insert _).mpr (.inl rfl))

/-- A walk that does not meet `self` goes the same way with another info there, also if
`self` counts as met. -/
theorem rootLoop_detour {infos infos' : Assoc Key Info} {self : Key}
    (hsame : ∀ k, k ≠ self → infos'.lookup k = infos.lookup k) : ∀ (fuel : Nat) (next root : Key)
    (dist dist' : UInt64) (dists dists' : Assoc Key UInt64),
    (∀ k, k ∈ dists' ↔ k = self ∨ k ∈ dists) →
      self ∉ (rootLoop infos fuel next root dist dists).2 →
      (rootLoop infos' fuel next root dist' dists').1 =
        (rootLoop infos fuel next root dist dists).1 := by
  intro fuel
  induction fuel with
  | zero => exact fun _ _ _ _ _ _ _ _ => rfl
  | succ fuel ih =>
    intro next root dist dist' dists dists' hdists hself
    rw [rootLoop] at hself ⊢
    rw [rootLoop]
    by_cases hmet : next ∈ dists
    · rw [if_pos hmet, if_pos ((hdists next).mpr (.inr hmet))]
    · rw [if_neg hmet] at hself ⊢
      by_cases heq : next = self
      · -- The walk ends here in both tables, or it would have met `self`.
        rw [if_pos ((hdists next).mpr (.inl heq))]
        cases hinfo : infos.lookup next with
        | none => rfl
        | some info =>
          rw [hinfo] at hself
          exact absurd (mem_rootLoop_of_mem _ _ _ _ _
            ((AList.mem_insert _).mpr (.inl heq.symm))) hself
      · have hmet' : next ∉ dists' := fun h => ((hdists next).mp h).elim heq hmet
        rw [if_neg hmet', hsame next heq]
        cases hinfo : infos.lookup next with
        | none => rfl
        | some info =>
          rw [hinfo] at hself
          refine ih _ _ _ _ _ _ (fun k => ?_) hself
          rw [AList.mem_insert, AList.mem_insert, hdists]
          exact or_left_comm

theorem length_keys_insert {infos : Assoc Key Info} {self : Key} (info : Info) :
    (infos.insert self info).keys.length =
      if self ∈ infos then infos.keys.length else infos.keys.length + 1 := by
  rw [AList.keys_insert, List.length_cons, List.length_erase]
  have hmem : self ∈ infos.keys ↔ self ∈ infos := AList.mem_keys.symm
  simp only [hmem]
  split
  · have : 0 < infos.keys.length := List.length_pos_of_mem (hmem.mpr ‹_›)
    omega
  · rfl

/-- **A node that points at a neighbour gets the neighbour's root**, if the neighbour's way
up did not lead through the node. -/
theorem rootOf_insert {infos : Assoc Key Info} {self : Key} {info : Info}
    (hparent : info.parent ∈ infos) (hloop : self ∉ (rootAndDists infos info.parent).2) :
    (rootAndDists (infos.insert self info) self).1 = (rootAndDists infos info.parent).1 := by
  have hne : info.parent ≠ self := fun heq =>
    hloop (heq ▸ mem_rootAndDists_self hparent)
  obtain ⟨up, hup⟩ := Assoc.mem_iff_lookup.mp hparent
  have hsame : ∀ k, k ≠ self → (infos.insert self info).lookup k = infos.lookup k :=
    fun k hk => AList.lookup_insert_ne hk
  -- One key is met before the neighbour, and with it met there is fuel to spare.
  obtain ⟨met, hmet⟩ : ∃ met : Assoc Key UInt64, met = AList.insert self 0 ∅ := ⟨_, rfl⟩
  have hmem : ∀ k, k ∈ met ↔ k = self := fun k => by
    rw [hmet, AList.mem_insert]
    exact or_iff_left (AList.notMem_empty k)
  have hfuel : rootLoop (infos.insert self info) (infos.insert self info).keys.length info.parent
      self 1 met =
      rootLoop (infos.insert self info) (infos.keys.length + 1) info.parent self 1 met := by
    rw [length_keys_insert]
    split
    · refine (rootLoop_fuel _ _ _ _ _ ?_).symm
      have hlt : unseen (infos.insert self info) (· ∈ met) <
          unseen (infos.insert self info) (fun _ => false) :=
        unseen_lt (by simp) ((AList.mem_insert _).mpr (.inl rfl)) rfl (by simp [hmem])
      have hall : unseen (infos.insert self info) (fun _ => false) = infos.keys.length := by
        rw [unseen]
        simp only [Bool.not_false, List.countP_true, length_keys_insert, if_pos ‹self ∈ infos›]
      omega
    · rfl
  have hstart : rootAndDists (infos.insert self info) self =
      rootLoop (infos.insert self info) (infos.keys.length + 1) info.parent self 1 met := by
    rw [← hfuel, hmet, rootAndDists, rootLoop, if_neg (AList.notMem_empty self),
      AList.lookup_insert]
    rfl
  rw [hstart, rootLoop, if_neg fun h => hne ((hmem _).mp h), hsame _ hne, hup]
  rw [rootAndDists, rootLoop, if_neg (AList.notMem_empty _), hup] at hloop ⊢
  refine rootLoop_detour hsame _ _ _ _ _ _ _ (fun k => ?_) hloop
  simp only [AList.mem_insert, hmem, AList.notMem_empty, or_false]
  exact or_comm

/-- Walks depend on the parents alone. -/
theorem rootLoop_congr {infos infos' : Assoc Key Info}
    (h : ∀ k, (infos'.lookup k).map Info.parent = (infos.lookup k).map Info.parent) :
    ∀ (fuel : Nat) (next root : Key) (dist : UInt64) (dists : Assoc Key UInt64),
      rootLoop infos' fuel next root dist dists = rootLoop infos fuel next root dist dists := by
  intro fuel
  induction fuel with
  | zero => exact fun _ _ _ _ => rfl
  | succ fuel ih =>
    intro next root dist dists
    rw [rootLoop, rootLoop]
    have hnext := h next
    cases hinfo : infos.lookup next with
    | none =>
      rw [hinfo, Option.map_none, Option.map_eq_none_iff] at hnext
      rw [hnext]
    | some info =>
      rw [hinfo, Option.map_some, Option.map_eq_some_iff] at hnext
      obtain ⟨info', hinfo', hparent⟩ := hnext
      rw [hinfo']
      dsimp only
      rw [hparent, ih]

/-- A new info with the old parent changes no way up. -/
theorem rootAndDists_insert {infos : Assoc Key Info} {self : Key} {old info : Info}
    (hold : infos.lookup self = some old) (hparent : info.parent = old.parent) (k : Key) :
    rootAndDists (infos.insert self info) k = rootAndDists infos k := by
  rw [rootAndDists, length_keys_insert, if_pos (Assoc.mem_iff_lookup.mpr ⟨old, hold⟩)]
  refine rootLoop_congr (fun k' => ?_) _ _ _ _ _
  rw [Assoc.lookup_insert_ite]
  split
  · rename_i heq
    rw [heq, hold, Option.map_some, Option.map_some, hparent]
  · rfl

/-! ## The scan -/

/-- The root of a parent the scan chose is the root this node gets when it follows it. -/
theorem rootOf_selected {t : TreeState} {links : LinkSet} {pubkey : Key} {c : Choice}
    (h : t.Selected links pubkey c) (hroot : c.root ≠ pubkey) {info : Info}
    (hparent : info.parent = c.parent) :
    (rootAndDists (t.infos.insert pubkey info) pubkey).1 = c.root := by
  rcases h.source with heq | ⟨⟨-, hinfo, hloop⟩, hrootOf⟩
  · rcases t.startChoice_cases links pubkey with hself | ⟨old, hold, -, -, hstart, hkept⟩
    · rw [heq, hself] at hroot
      exact absurd rfl hroot
    · rw [heq] at hparent ⊢
      rw [rootAndDists_insert hold (hparent.trans hkept), hstart]
      rfl
  · rw [← hparent] at hinfo hloop hrootOf
    rw [rootOf_insert hinfo hloop, hrootOf]
    rfl

/-- The scan starts at the current parent if that one is linked and leads to a lower root. -/
theorem startChoice_of_linked {t : TreeState} {links : LinkSet} {pubkey : Key} {info : Info}
    (hinfo : t.infos.lookup pubkey = some info) (hlinked : links.hasPeer info.parent = true)
    (hlow : t.rootOf pubkey < pubkey) :
    (t.startChoice links pubkey).root = t.rootOf pubkey ∧
      (t.startChoice links pubkey).parent = info.parent := by
  have hmem := root_mem_rootAndDists (Assoc.mem_iff_lookup.mpr ⟨info, hinfo⟩)
  obtain ⟨d, hd⟩ := Assoc.mem_iff_lookup.mp hmem
  change (rootAndDists t.infos pubkey).1 < pubkey at hlow
  simp only [startChoice, rootOf, hinfo, hlinked, if_true, hd, if_pos hlow, and_self]

/-- One neighbour does not move the scan from a current parent that leads to as low a root,
unless a refresh is pending. -/
theorem consider_of_stable {t : TreeState} (links : LinkSet) {pubkey : Key} {best : Choice}
    (hrefresh : t.refresh = false)
    (hparent : (t.infos.lookup pubkey).map Info.parent = some best.parent) {k : Key}
    (hle : t.Eligible pubkey k → best.root ≤ t.rootOf k) (hk : k ∈ t.responses) :
    t.consider links pubkey best k = best := by
  by_cases hskipped : k ∈ t.infos → pubkey ∈ (rootAndDists t.infos k).2
  · exact consider_of_skipped hskipped best
  obtain ⟨hinfo, hloop⟩ := Classical.not_imp.mp hskipped
  have hroot : ¬ (rootAndDists t.infos k).1 < best.root :=
    not_lt (α := Nat) |>.mpr (hle ⟨hk, hinfo, hloop⟩)
  unfold consider
  simp [hinfo, hloop, if_neg hroot, hrefresh, hparent]

/-- **Without a reason to move, the scan ends where it started.** -/
theorem select_eq_startChoice {t : TreeState} {links : LinkSet} {pubkey : Key}
    (hrefresh : t.refresh = false)
    (hparent : (t.infos.lookup pubkey).map Info.parent = some (t.startChoice links pubkey).parent)
    (hle : ∀ k, t.Eligible pubkey k → (t.startChoice links pubkey).root ≤ t.rootOf k) :
    t.select links pubkey = t.startChoice links pubkey := by
  have hscan : ∀ keys : List Key, (∀ k ∈ keys, k ∈ t.responses) →
      keys.foldl (t.consider links pubkey) (t.startChoice links pubkey) =
        t.startChoice links pubkey := by
    intro keys
    induction keys with
    | nil => exact fun _ => rfl
    | cons k keys ih =>
      intro hkeys
      rw [List.foldl_cons, consider_of_stable links hrefresh hparent (hle k)
        (hkeys k (List.mem_cons_self ..))]
      exact ih fun k' hk' => hkeys k' (List.mem_cons_of_mem _ hk')
  exact hscan _ fun k hk => AList.mem_keys.mp (mem_sortKeys.mp hk)

end TreeState

/-! ## What `fix` leaves behind -/

section

variable [Crypto]

/-- The infos after a neighbour's answer was used. -/
theorem infos_fix_of_follow {w : World} (hw : Inv .free w) {k : Key} {res : SigRes}
    (hmove : w.router.move w.links = .follow k res) :
    (fix w).2.router.tree.infos =
      w.router.tree.infos.insert w.router.pubkey (ownAnnounce w.router k res).info := by
  obtain ⟨n, hstand⟩ := fix_stand hw
  rw [hmove] at hstand
  exact congrArg Stand.infos hstand

/-- A tree that needs nothing is left as it is. -/
theorem Router.move_eq_stay {r : Router} {links : LinkSet} (hrefresh : r.tree.refresh = false)
    (hroot1 : r.tree.doRoot1 = false) (hroot2 : r.tree.doRoot2 = false)
    (hparent : (r.tree.infos.lookup r.pubkey).map Info.parent =
      some (r.tree.select links r.pubkey).parent) : r.move links = .stay := by
  simp [Router.move, hrefresh, hroot1, hroot2, hparent]

/-- **Parent selection is root-minimal and stable**, in every state `fix` is called in, after
time has passed for the tree or not. If `fix` gives this node another parent, the root it
leads to is lower than this node, no higher than the root of a previous parent that is
linked, and no higher than the root of any eligible neighbour. And it leaves the own info
alone if nothing is pending and the linked parent leads to a root that is lower than this
node and no higher than that of any eligible neighbour. -/
theorem fix_selects {w v : World} (hw : w.Reachable) (hv : v = w ∨ v = w.expired) :
    (∀ info, (fix v).2.router.tree.infos.lookup v.router.pubkey = some info →
      v.router.tree.infos.lookup v.router.pubkey ≠ some info → info.parent ≠ v.router.pubkey →
      (fix v).2.router.tree.rootOf v.router.pubkey < v.router.pubkey ∧
      (∀ old, v.router.tree.infos.lookup v.router.pubkey = some old →
        v.links.hasPeer old.parent = true →
        (fix v).2.router.tree.rootOf v.router.pubkey ≤ v.router.tree.rootOf v.router.pubkey) ∧
      ∀ k, v.router.tree.Eligible v.router.pubkey k →
        (fix v).2.router.tree.rootOf v.router.pubkey ≤ v.router.tree.rootOf k) ∧
    (v.router.tree.refresh = false → v.router.tree.doRoot1 = false →
      v.router.tree.doRoot2 = false →
      ∀ info, v.router.tree.infos.lookup v.router.pubkey = some info →
        v.links.hasPeer info.parent = true →
        v.router.tree.rootOf v.router.pubkey < v.router.pubkey →
        (∀ k, v.router.tree.Eligible v.router.pubkey k →
          v.router.tree.rootOf v.router.pubkey ≤ v.router.tree.rootOf k) →
        (fix v).2.router.tree.infos.lookup v.router.pubkey = some info) := by
  have hinv : Inv .free v := by
    rcases hv with rfl | rfl
    · exact hw.inv
    · exact hw.inv.expired
  constructor
  · intro info hnew hchanged hparent
    obtain ⟨res, hmove⟩ := follow_of_fix hinv hnew hchanged hparent
    obtain ⟨hchosen, hroot, -⟩ := Router.move_eq_follow hmove
    have hsel := v.router.tree.selected_select v.links v.router.pubkey
    have hafter : (fix v).2.router.tree.rootOf v.router.pubkey =
        (v.router.tree.select v.links v.router.pubkey).root := by
      rw [TreeState.rootOf, infos_fix_of_follow hinv hmove]
      exact TreeState.rootOf_selected hsel hroot hchosen
    have hle := le_trans (α := Nat) hsel.le_start (v.router.tree.startChoice_root_le _ _)
    have hlow : (v.router.tree.select v.links v.router.pubkey).root < v.router.pubkey :=
      lt_of_le_of_ne (α := Nat) hle fun heq => hroot (keyNat_injective heq)
    rw [hafter]
    refine ⟨hlow, fun old hold hlinked => ?_, hsel.le⟩
    by_cases hbefore : v.router.tree.rootOf v.router.pubkey < v.router.pubkey
    · rw [← (TreeState.startChoice_of_linked hold hlinked hbefore).1]
      exact hsel.le_start
    · exact le_of_lt (α := Nat) (lt_of_lt_of_le (α := Nat) hlow (not_lt (α := Nat) |>.mp hbefore))
  · intro hrefresh hroot1 hroot2 info hinfo hlinked hlow hle
    obtain ⟨hroot, hparent⟩ := TreeState.startChoice_of_linked hinfo hlinked hlow
    have hselect : v.router.tree.select v.links v.router.pubkey =
        v.router.tree.startChoice v.links v.router.pubkey :=
      TreeState.select_eq_startChoice hrefresh (by rw [hinfo, hparent]; rfl)
        (by rw [hroot]; exact hle)
    have hmove : v.router.move v.links = .stay :=
      Router.move_eq_stay hrefresh hroot1 hroot2 (by rw [hselect, hinfo, hparent]; rfl)
    obtain ⟨n, hstand⟩ := fix_stand hinv
    rw [hmove] at hstand
    exact (congrArg (fun s => s.infos.lookup v.router.pubkey) hstand).trans hinfo

end

section

attribute [local instance] Sample.lenient

/-- The node with key 9 moves onto the root with key 3, and stays there at the next tick. -/
theorem fix_selects_answered :
    (fix answered.expired).2.router.tree.rootOf (smallKey 9) < smallKey 9 ∧
      (fix (answered.act .maintain)).2.router.tree.infos.lookup (smallKey 9) =
        (answered.act .maintain).router.tree.infos.lookup (smallKey 9) := by
  constructor
  · obtain ⟨hself, hfresh, hsome, hparent⟩ : answered.expired.router.pubkey = smallKey 9 ∧
        answered.expired.router.tree.infos.lookup (smallKey 9) = none ∧
        ((fix answered.expired).2.router.tree.infos.lookup (smallKey 9)).isSome ∧
        ∀ info ∈ (fix answered.expired).2.router.tree.infos.lookup (smallKey 9),
          info.parent ≠ smallKey 9 := by decide +kernel
    obtain ⟨info, hinfo⟩ := Option.isSome_iff_exists.mp hsome
    have hne := hparent info hinfo
    rw [← hself] at hinfo hfresh hne ⊢
    refine ((fix_selects answered_reachable (.inr rfl)).1 info hinfo ?_ hne).1
    rw [hfresh]
    exact Option.some_ne_none info |>.symm
  · obtain ⟨w, hw⟩ : ∃ w, w = answered.act .maintain := ⟨_, rfl⟩
    obtain ⟨hself, hsome, hlinked, hnone, hlow, hrefresh, hroot1, hroot2⟩ :
        w.router.pubkey = smallKey 9 ∧
        (w.router.tree.infos.lookup (smallKey 9)).isSome ∧
        (∀ info ∈ w.router.tree.infos.lookup (smallKey 9),
          w.links.hasPeer info.parent = true) ∧
        w.router.tree.responses.keys = [] ∧
        w.router.tree.rootOf (smallKey 9) < smallKey 9 ∧
        w.router.tree.refresh = false ∧ w.router.tree.doRoot1 = false ∧
        w.router.tree.doRoot2 = false := by
      rw [hw]
      decide +kernel
    obtain ⟨info, hinfo⟩ := Option.isSome_iff_exists.mp hsome
    have hpeer := hlinked info hinfo
    rw [← hw, hinfo]
    rw [← hself] at hinfo hlow ⊢
    refine (fix_selects (hw ▸ answered_reachable.act .maintain) (.inl rfl)).2 hrefresh hroot1
      hroot2 info hinfo hpeer hlow fun k hel => ?_
    have hmem := AList.mem_keys.mp hel.1
    rw [hnone] at hmem
    exact absurd hmem List.not_mem_nil

end

end Roots

import Roots.Router.OwnInfo
import Roots.Router.Selection

/-!
# Roots.Router.Leaders

When the parent `fix` moves onto has a link. Of the neighbours that have answered, only
those that lead to the lowest root count in the end. They are measured against **the
choice that leads there first**: the current parent if it is linked and leads there, and
the first of them in key order otherwise. From then on costs decide. A neighbour without a
link costs everything there is, so it loses to any other it is measured against, with one
exception: a neighbour that is itself the root is no hops away from it and **costs
nothing, linked or not**.

So the scan ends at a linked neighbour exactly if the first choice is linked or loses to
another one, and no neighbour without a link and without a cost takes over
(`select_linked_iff`).
-/

namespace Roots

open Prog RouterM
open Sample (smallKey)

namespace TreeState

section

variable (t : TreeState) (links : LinkSet) (pubkey : Key)

/-! ## The neighbours that count -/

instance (k : Key) : Decidable (t.Eligible pubkey k) := inferInstanceAs (Decidable (_ ∧ _ ∧ _))

/-- No eligible neighbour leads to a lower root than this one does, and neither does the
choice the scan starts with. -/
def leads (k : Key) : Bool :=
  decide (t.Eligible pubkey k) && decide (t.rootOf k ≤ (t.startChoice links pubkey).root) &&
    t.responses.keys.all fun k' => !decide (t.Eligible pubkey k') ||
      decide (t.rootOf k ≤ t.rootOf k')

/-- The neighbours that lead to the lowest root, in key order. -/
def leaders : List Key := (sortKeys t.responses.keys).filter (t.leads links pubkey)

/-- The parent in the own info. -/
def curParent : Option Key := (t.infos.lookup pubkey).map Info.parent

/-- The test of `fix` for a neighbour that leads to the same root as the best so far. -/
def undercuts (best : Choice) (k : Key) : Bool :=
  let cost := (t.offer t.infos links k).cost
  decide ((t.refresh ∧ satMul cost 2 < best.cost) ∨
    (some best.parent ≠ t.curParent pubkey ∧ cost < best.cost))

/-- The neighbour is taken if it costs less. -/
def challenge (best : Choice) (k : Key) : Choice :=
  if t.undercuts links pubkey best k then t.offer t.infos links k else best

/-- The first choice of the scan that leads to the lowest root. -/
def firstChoice : Choice :=
  match (t.leaders links pubkey).head? with
  | some k =>
      if t.rootOf k < (t.startChoice links pubkey).root then t.offer t.infos links k
      else t.startChoice links pubkey
  | none => t.startChoice links pubkey

/-- Whether a neighbour is the root it leads to, as far as its cost says. -/
def costsNothing (k : Key) : Bool := (t.offer t.infos links k).cost = 0

/-- **The first choice is linked or loses to another neighbour that leads there, and the
first of those that cost nothing is linked if it takes over.** -/
def EndsLinked : Prop :=
  (links.hasPeer (t.firstChoice links pubkey).parent = true ∨
    ∃ k ∈ t.leaders links pubkey,
      t.undercuts links pubkey (t.firstChoice links pubkey) k = true) ∧
  ∀ k ∈ (t.leaders links pubkey).find? (t.costsNothing links),
    t.undercuts links pubkey (t.firstChoice links pubkey) k = true → links.hasPeer k = true

end

variable {t : TreeState} {links : LinkSet} {pubkey : Key}

theorem leads_iff {k : Key} :
    t.leads links pubkey k = true ↔ t.Eligible pubkey k ∧
      t.rootOf k ≤ (t.startChoice links pubkey).root ∧
      ∀ k', t.Eligible pubkey k' → t.rootOf k ≤ t.rootOf k' := by
  simp only [leads, Bool.and_eq_true, decide_eq_true_eq, List.all_eq_true, Bool.or_eq_true,
    Bool.not_eq_true', decide_eq_false_iff_not, and_assoc]
  refine and_congr_right fun _ => and_congr_right fun _ => ⟨fun h k' hel => ?_, fun h k' _ => ?_⟩
  · exact (h k' (AList.mem_keys.mp hel.1)).resolve_left (not_not.mpr hel)
  · by_cases hel : t.Eligible pubkey k'
    · exact .inr (h k' hel)
    · exact .inl hel

theorem mem_leaders {k : Key} :
    k ∈ t.leaders links pubkey ↔ t.leads links pubkey k = true := by
  rw [leaders, List.mem_filter, mem_sortKeys]
  exact and_iff_right_of_imp fun h => AList.mem_keys.mp (leads_iff.mp h).1.1

theorem rootOf_eq_of_leads {k k' : Key} (h : t.leads links pubkey k = true)
    (h' : t.leads links pubkey k' = true) : t.rootOf k = t.rootOf k' := by
  obtain ⟨hel, -, hle⟩ := leads_iff.mp h
  obtain ⟨hel', -, hle'⟩ := leads_iff.mp h'
  exact keyNat_injective (le_antisymm (α := Nat) (hle k' hel') (hle' k hel))

/-- An eligible neighbour that does not lead to the lowest root leads to a higher one. -/
theorem lt_rootOf_of_not_leads {k k' : Key} (h : t.leads links pubkey k = true)
    (hel : t.Eligible pubkey k') (h' : t.leads links pubkey k' = false) :
    t.rootOf k < t.rootOf k' := by
  obtain ⟨-, hstart, hle⟩ := leads_iff.mp h
  refine lt_of_le_of_ne (α := Nat) (hle k' hel) fun heq => ?_
  have hroot : t.rootOf k = t.rootOf k' := keyNat_injective heq
  rw [Bool.eq_false_iff, Ne, leads_iff, ← hroot] at h'
  exact h' ⟨hel, hstart, hle⟩

/-! ## The scan among them -/

theorem consider_of_eligible {k : Key} (h : t.Eligible pubkey k) (best : Choice) :
    t.consider links pubkey best k =
      if t.rootOf k < best.root then t.offer t.infos links k
      else if t.rootOf k ≠ best.root then best
      else t.challenge links pubkey best k := by
  unfold consider
  rw [if_neg (not_not.mpr h.2.1)]
  simp only [if_neg h.2.2, challenge, undercuts, decide_eq_true_eq]
  rfl

theorem consider_of_not_eligible {k : Key} (hk : k ∈ t.responses) (h : ¬ t.Eligible pubkey k)
    (best : Choice) : t.consider links pubkey best k = best :=
  consider_of_skipped (fun hinfo => not_not.mp fun hloop => h ⟨hk, hinfo, hloop⟩) best

/-- Once the lowest root is reached, only costs count. -/
theorem foldl_consider_of_level {k : Key} (hk : t.leads links pubkey k = true) :
    ∀ (keys : List Key) (best : Choice), (∀ k ∈ keys, k ∈ t.responses) →
      best.root = t.rootOf k →
      keys.foldl (t.consider links pubkey) best =
        (keys.filter (t.leads links pubkey)).foldl (t.challenge links pubkey) best := by
  intro keys
  induction keys with
  | nil => exact fun _ _ _ => rfl
  | cons k' keys ih =>
    intro best hkeys hroot
    have htail : ∀ k ∈ keys, k ∈ t.responses := fun k h => hkeys k (List.mem_cons_of_mem _ h)
    rw [List.foldl_cons]
    cases hk' : t.leads links pubkey k' with
    | true =>
      have hsame : t.rootOf k' = best.root := (rootOf_eq_of_leads hk' hk).trans hroot.symm
      have hnext : (t.challenge links pubkey best k').root = t.rootOf k := by
        unfold challenge
        split
        · exact rootOf_eq_of_leads hk' hk
        · exact hroot
      have hlt : ¬ t.rootOf k' < best.root := by
        rw [hsame]
        exact lt_irrefl (α := Nat) _
      rw [List.filter_cons_of_pos hk', List.foldl_cons,
        consider_of_eligible (leads_iff.mp hk').1, if_neg hlt, if_neg (not_not.mpr hsame)]
      exact ih _ htail hnext
    | false =>
      have hstays : t.consider links pubkey best k' = best := by
        by_cases hel : t.Eligible pubkey k'
        · have hlt : best.root < t.rootOf k' := hroot ▸ lt_rootOf_of_not_leads hk hel hk'
          have hnot : ¬ t.rootOf k' < best.root := lt_asymm (α := Nat) hlt
          have hne : t.rootOf k' ≠ best.root := fun heq =>
            lt_irrefl (keyNat best.root) (heq ▸ hlt)
          rw [consider_of_eligible hel, if_neg hnot, if_pos hne]
        · exact consider_of_not_eligible (hkeys k' List.mem_cons_self) hel best
      rw [List.filter_cons_of_neg (by simp [hk']), hstays]
      exact ih best htail hroot

/-- No neighbour costs less than itself. -/
theorem challenge_self (k : Key) :
    t.challenge links pubkey (t.offer t.infos links k) k = t.offer t.infos links k := by
  have hcost : ∀ c : UInt64, ¬ satMul c 2 < c := fun c =>
    UInt64.not_lt.mpr (le_satMul_two c)
  unfold challenge undercuts
  simp [hcost]

/-- Before the lowest root is reached, the first neighbour that leads there is taken. -/
theorem foldl_consider_of_above {k : Key} (hk : t.leads links pubkey k = true) {first : Key}
    {rest : List Key} : ∀ (keys : List Key) (best : Choice), (∀ k ∈ keys, k ∈ t.responses) →
      t.rootOf k < best.root → keys.filter (t.leads links pubkey) = first :: rest →
      keys.foldl (t.consider links pubkey) best =
        (first :: rest).foldl (t.challenge links pubkey) (t.offer t.infos links first) := by
  intro keys
  induction keys with
  | nil => exact fun _ _ _ h => nomatch h
  | cons k' keys ih =>
    intro best hkeys hlt hfilter
    have htail : ∀ k ∈ keys, k ∈ t.responses := fun k h => hkeys k (List.mem_cons_of_mem _ h)
    rw [List.foldl_cons]
    cases hk' : t.leads links pubkey k' with
    | true =>
      rw [List.filter_cons_of_pos hk'] at hfilter
      obtain ⟨rfl, rfl⟩ := List.cons.inj hfilter
      have hroot := rootOf_eq_of_leads hk' hk
      rw [consider_of_eligible (leads_iff.mp hk').1, if_pos (hroot ▸ hlt), List.foldl_cons,
        challenge_self]
      exact foldl_consider_of_level hk keys _ htail hroot
    | false =>
      rw [List.filter_cons_of_neg (by simp [hk'])] at hfilter
      refine ih _ htail ?_ hfilter
      by_cases hel : t.Eligible pubkey k'
      · -- Whatever the scan takes now leads to a higher root.
        have hlt' := lt_rootOf_of_not_leads hk hel hk'
        rw [consider_of_eligible hel]
        unfold challenge
        split_ifs
        · exact hlt'
        · exact hlt
        · exact hlt'
        · exact hlt
      · rw [consider_of_not_eligible (hkeys k' List.mem_cons_self) hel]
        exact hlt

/-- No root but a node itself is a node's own key. -/
theorem rootOf_ne_of_eligible {k : Key} (h : t.Eligible pubkey k) : t.rootOf k ≠ pubkey :=
  fun heq => h.2.2 (heq ▸ root_mem_rootAndDists h.2.1)

theorem select_of_no_leaders (h : t.leaders links pubkey = []) :
    t.select links pubkey = t.startChoice links pubkey := by
  have hsel := t.selected_select links pubkey
  refine hsel.source.resolve_right fun hfound => ?_
  have hleads : t.leads links pubkey (t.select links pubkey).parent = true :=
    leads_iff.mpr ⟨hfound.1, hfound.2 ▸ hsel.le_start, fun k' hel => hfound.2 ▸ hsel.le k' hel⟩
  exact absurd (mem_leaders.mpr hleads) (h ▸ List.not_mem_nil)

/-- **The scan of `fix`, without the neighbours that do not count.** -/
theorem select_eq_challenge : t.select links pubkey =
    (t.leaders links pubkey).foldl (t.challenge links pubkey) (t.firstChoice links pubkey) := by
  have hkeys : ∀ k ∈ sortKeys t.responses.keys, k ∈ t.responses := fun k hk =>
    AList.mem_keys.mp (mem_sortKeys.mp hk)
  unfold firstChoice
  cases hleaders : t.leaders links pubkey with
  | nil => exact select_of_no_leaders hleaders
  | cons first rest =>
    have hfirst : t.leads links pubkey first = true :=
      mem_leaders.mp (hleaders ▸ List.mem_cons_self)
    simp only [List.head?_cons]
    split
    · exact foldl_consider_of_above hfirst _ _ hkeys ‹_› hleaders
    · rename_i hlt
      have hlevel : (t.startChoice links pubkey).root = t.rootOf first :=
        keyNat_injective (le_antisymm (α := Nat) (not_lt (α := Nat) |>.mp hlt)
          (leads_iff.mp hfirst).2.1)
      rw [← hleaders]
      exact foldl_consider_of_level hfirst _ _ hkeys hlevel

/-! ## Who wins -/

/-- A neighbour without a link costs nothing or everything. -/
theorem cost_of_unlinked {k : Key} (h : links.hasPeer k = false) :
    (t.offer t.infos links k).cost = 0 ∨ (t.offer t.infos links k).cost = maxU64 := by
  have hnone : links.linksTo k = [] := by
    by_contra hne
    rw [LinkSet.linksTo_ne_nil.mp hne] at h
    cases h
  have hcost : t.cost links k = maxU64 := by
    rw [cost, hnone]
    rfl
  have hmul : ∀ d : UInt64, satMul d maxU64 = 0 ∨ satMul d maxU64 = maxU64 := by
    intro d
    rcases Nat.eq_zero_or_pos d.toNat with hd | hd
    · left
      rw [satMul, hd, Nat.zero_mul]
      rfl
    · right
      have hle : 2 ^ 64 - 1 ≤ d.toNat * maxU64.toNat := Nat.le_mul_of_pos_left _ hd
      rw [satMul, Nat.min_eq_right hle]
      rfl
  rw [offer, hcost]
  exact hmul _

theorem cost_lt_of_undercuts {best : Choice} {k : Key}
    (h : t.undercuts links pubkey best k = true) : (t.offer t.infos links k).cost < best.cost := by
  rcases of_decide_eq_true h with ⟨-, hlt⟩ | ⟨-, hlt⟩
  · exact UInt64.lt_of_le_of_lt (le_satMul_two _) hlt
  · exact hlt

theorem hasPeer_of_cost {k : Key} {cost : UInt64} (hpaid : (t.offer t.infos links k).cost ≠ 0)
    (hlt : (t.offer t.infos links k).cost < cost) : links.hasPeer k = true := by
  by_contra hpeer
  rw [(cost_of_unlinked (Bool.eq_false_iff.mpr hpeer)).resolve_left hpaid,
    UInt64.lt_iff_toNat_lt] at hlt
  have hmax : maxU64.toNat = 2 ^ 64 - 1 := rfl
  have hcost := cost.toNat_lt
  omega

/-- The scan may move away from a choice. -/
def Movable (t : TreeState) (pubkey : Key) (best : Choice) : Prop :=
  t.refresh = true ∨ some best.parent ≠ t.curParent pubkey

theorem movable_of_undercuts {best : Choice} {k : Key}
    (h : t.undercuts links pubkey best k = true) : t.Movable pubkey best :=
  (of_decide_eq_true h).imp And.left And.left

/-- A neighbour without a cost is taken if the scan may move at all. -/
theorem undercuts_of_costsNothing {best : Choice} {k : Key} (hk : t.costsNothing links k = true) :
    t.undercuts links pubkey best k = true ↔ 0 < best.cost ∧ t.Movable pubkey best := by
  have hzero : satMul 0 2 = 0 := rfl
  rw [undercuts, of_decide_eq_true hk, decide_eq_true_iff, hzero, ← or_and_right, and_comm, Movable]

/-- Nothing costs less than nothing. -/
theorem undercuts_offer_of_costsNothing {k : Key} (hk : t.costsNothing links k = true) (k' : Key) :
    t.undercuts links pubkey (t.offer t.infos links k) k' = false := by
  refine Bool.eq_false_iff.mpr fun h => ?_
  have hlt := cost_lt_of_undercuts h
  rw [of_decide_eq_true hk] at hlt
  exact absurd hlt UInt64.not_lt_zero

/-- The current parent is not among the neighbours yet to come, unless the choice is that one.
Without a refresh the scan does not leave the current parent. -/
def Unrivalled (t : TreeState) (links : LinkSet) (pubkey : Key) (keys : List Key)
    (best : Choice) : Prop :=
  t.refresh = false → ∀ k ∈ keys, links.hasPeer k = true → some k = t.curParent pubkey →
    some best.parent = t.curParent pubkey

namespace Unrivalled

variable {keys : List Key} {k : Key} {best : Choice}

theorem tail (h : t.Unrivalled links pubkey (k :: keys) best) :
    t.Unrivalled links pubkey keys best :=
  fun hrefresh k' hk' => h hrefresh k' (List.mem_cons_of_mem _ hk')

theorem offer (h : t.Unrivalled links pubkey keys best) (hmoves : t.Movable pubkey best) :
    t.Unrivalled links pubkey keys (t.offer t.infos links k) :=
  fun hrefresh k' hk' hpeer heq =>
    absurd (h hrefresh k' hk' hpeer heq) (hmoves.resolve_left (by simp [hrefresh]))

/-- From a linked neighbour that was taken the scan may move on. -/
theorem movable (h : t.Unrivalled links pubkey (k :: keys) best) (hmoves : t.Movable pubkey best)
    (hpeer : links.hasPeer k = true) : t.Movable pubkey (t.offer t.infos links k) := by
  cases hrefresh : t.refresh with
  | true => exact .inl hrefresh
  | false =>
    have hne := hmoves.resolve_left (by simp [hrefresh])
    exact .inr fun heq => hne (h hrefresh k List.mem_cons_self hpeer heq)

end Unrivalled

/-- The neighbour at hand does not take over: if it costs nothing, no other without a cost does. -/
theorem linked_of_passed {keys : List Key} {k : Key} {best : Choice}
    (hcut : t.undercuts links pubkey best k = false) :
    (∀ k' ∈ keys.find? (t.costsNothing links),
        t.undercuts links pubkey best k' = true → links.hasPeer k' = true) ↔
      ∀ k' ∈ (k :: keys).find? (t.costsNothing links),
        t.undercuts links pubkey best k' = true → links.hasPeer k' = true := by
  cases hfree : t.costsNothing links k with
  | false => rw [List.find?_cons_of_neg (by simp [hfree])]
  | true =>
    rw [List.find?_cons_of_pos hfree]
    refine iff_of_true (fun k' hk' hcut' => ?_) fun k' hk' hcut' => ?_
    · rw [undercuts_of_costsNothing (List.find?_some hk'), ← undercuts_of_costsNothing hfree,
        hcut] at hcut'
      cases hcut'
    · obtain rfl := Option.mem_some.mp hk'
      rw [hcut] at hcut'
      cases hcut'

/-- The neighbour at hand takes over: it is linked unless it costs nothing, and then it is the
last one. -/
theorem linked_of_taken {keys : List Key} {k : Key} {best : Choice}
    (hrivals : t.Unrivalled links pubkey (k :: keys) best)
    (hcut : t.undercuts links pubkey best k = true) :
    (links.hasPeer k = true ∨
        ∃ k' ∈ keys, t.undercuts links pubkey (t.offer t.infos links k) k' = true) ∧
      (∀ k' ∈ keys.find? (t.costsNothing links),
        t.undercuts links pubkey (t.offer t.infos links k) k' = true → links.hasPeer k' = true) ↔
      ∀ k' ∈ (k :: keys).find? (t.costsNothing links),
        t.undercuts links pubkey best k' = true → links.hasPeer k' = true := by
  have hmoves := movable_of_undercuts hcut
  cases hfree : t.costsNothing links k with
  | true =>
    simp [List.find?_cons_of_pos hfree, undercuts_offer_of_costsNothing hfree, hcut]
  | false =>
    have hpaid : (t.offer t.infos links k).cost ≠ 0 := of_decide_eq_false hfree
    have hlt := cost_lt_of_undercuts hcut
    have hpeer : links.hasPeer k = true := hasPeer_of_cost hpaid hlt
    have hpos : 0 < (t.offer t.infos links k).cost := UInt64.pos_iff_ne_zero.mpr hpaid
    rw [and_iff_right (.inl hpeer), List.find?_cons_of_neg (by simp [hfree])]
    refine forall₂_congr fun k' hk' => ?_
    have hfree' := List.find?_some hk'
    rw [undercuts_of_costsNothing hfree', undercuts_of_costsNothing hfree',
      iff_true_intro (⟨hpos, hrivals.movable hmoves hpeer⟩ : _ ∧ _),
      iff_true_intro (⟨UInt64.lt_trans hpos hlt, hmoves⟩ : _ ∧ _)]

/-- **Who wins the comparison of costs.** -/
theorem hasPeer_foldl_challenge (keys : List Key) {best : Choice}
    (hrivals : t.Unrivalled links pubkey keys best) :
    links.hasPeer (keys.foldl (t.challenge links pubkey) best).parent = true ↔
      (links.hasPeer best.parent = true ∨
        ∃ k ∈ keys, t.undercuts links pubkey best k = true) ∧
      ∀ k ∈ keys.find? (t.costsNothing links),
        t.undercuts links pubkey best k = true → links.hasPeer k = true := by
  induction keys generalizing best with
  | nil => simp
  | cons k keys ih =>
    rw [List.foldl_cons, challenge]
    cases hcut : t.undercuts links pubkey best k with
    | false =>
      rw [if_neg Bool.false_ne_true, ih hrivals.tail, linked_of_passed hcut]
      simp only [List.mem_cons, exists_eq_or_imp, hcut, Bool.false_eq_true, false_or]
    | true =>
      have hsome : links.hasPeer best.parent = true ∨
          ∃ k' ∈ k :: keys, t.undercuts links pubkey best k' = true :=
        .inr ⟨k, List.mem_cons_self, hcut⟩
      rw [if_pos rfl, ih (hrivals.tail.offer (movable_of_undercuts hcut)), and_iff_right hsome]
      exact linked_of_taken hrivals hcut

/-- A linked parent that leads to the lowest root is the first choice. -/
theorem firstChoice_of_linked {info : Info} (hinfo : t.infos.lookup pubkey = some info)
    (hleads : t.leads links pubkey info.parent = true)
    (hpeer : links.hasPeer info.parent = true) :
    t.firstChoice links pubkey = t.startChoice links pubkey ∧
      (t.startChoice links pubkey).parent = info.parent := by
  obtain ⟨hel, hle, -⟩ := leads_iff.mp hleads
  have hroot : t.rootOf pubkey = t.rootOf info.parent := by
    have hinsert := rootOf_insert hel.2.1 hel.2.2
    rwa [rootAndDists_insert hinfo rfl] at hinsert
  have hlow : t.rootOf pubkey < pubkey := by
    rw [hroot]
    refine lt_of_le_of_ne (α := Nat) (le_trans (α := Nat) hle (t.startChoice_root_le _ _)) ?_
    exact fun heq => rootOf_ne_of_eligible hel (keyNat_injective heq)
  obtain ⟨hstart, hparent⟩ := startChoice_of_linked hinfo hpeer hlow
  refine ⟨?_, hparent⟩
  unfold firstChoice
  cases hleaders : t.leaders links pubkey with
  | nil => rfl
  | cons first rest =>
    have hfirst : t.leads links pubkey first = true :=
      mem_leaders.mp (hleaders ▸ List.mem_cons_self)
    have hlt : ¬ t.rootOf first < (t.startChoice links pubkey).root := by
      rw [hstart, hroot, rootOf_eq_of_leads hfirst hleads]
      exact lt_irrefl (α := Nat) _
    simp only [List.head?_cons, if_neg hlt]

/-- **The scan of `fix` ends at a linked neighbour exactly under the condition above.** -/
theorem select_linked_iff :
    links.hasPeer (t.select links pubkey).parent = true ↔ t.EndsLinked links pubkey := by
  rw [select_eq_challenge]
  refine hasPeer_foldl_challenge _ fun _ k hk hpeer hcur => ?_
  obtain ⟨info, hinfo, rfl⟩ := Option.map_eq_some_iff.mp hcur.symm
  obtain ⟨hfirst, hparent⟩ := firstChoice_of_linked hinfo (mem_leaders.mp hk) hpeer
  rw [hfirst, hparent]
  exact hcur

end TreeState

section

variable [Crypto]

/-- **`fix` moves onto a parent with a live link exactly if** the scan ends at a linked
neighbour, in every state it is called in. -/
theorem fix_moves_onto_linked_iff {w : World} (hw : w.Reachable) {info : Info}
    (hnew : (fix w.expired).2.router.tree.infos.lookup w.router.pubkey = some info)
    (hchanged : w.expired.router.tree.infos.lookup w.router.pubkey ≠ some info)
    (hparent : info.parent ≠ w.router.pubkey) :
    w.links.hasPeer info.parent = true ↔
      w.expired.router.tree.EndsLinked w.links w.router.pubkey := by
  obtain ⟨res, hmove⟩ := follow_of_fix hw.inv.expired hnew hchanged hparent
  rw [(Router.move_eq_follow hmove).1]
  exact TreeState.select_linked_iff

end

/-! ## A run -/

section

attribute [local instance] Sample.lenient

/-- The announce of a node whose parent is the root with key 3. -/
def belowRoot (k : Key) : Announce where
  key := k
  parent := smallKey 3
  res := SigRes.seal ⟨1, 8⟩ 5 k (smallKey 3) (smallKey 3)
  sig := Crypto.sign k []

/-- The neighbours 4 and 5 of the node with key 9 are both below the root, and both have
answered. -/
def twoAnswered : World :=
  (World.init (smallKey 9) (.even 1)).run
    [.connect (smallKey 4) 0 true, .connect (smallKey 5) 0 true,
      .frame 0 .announce lowRoot.encode,
      .frame 0 .announce (belowRoot (smallKey 4)).encode,
      .frame 1 .announce (belowRoot (smallKey 5)).encode,
      .frame 0 .sigRes (answerOf (smallKey 4) ⟨1, 0⟩).encode,
      .frame 1 .sigRes (answerOf (smallKey 5) ⟨1, 4⟩).encode]

/-- The link to the first of them is lost. -/
def firstLost : World := twoAnswered.act (.disconnect 0)

theorem firstLost_reachable : firstLost.Reachable := by
  have hrun : twoAnswered.Reachable := ⟨_, _, _, rfl⟩
  exact hrun.act _

/-- The neighbour without a link comes first, and `fix` moves onto the other one: the first
costs everything. -/
theorem fix_moves_onto_linked_second :
    ∃ info, (fix firstLost.expired).2.router.tree.infos.lookup (smallKey 9) = some info ∧
      firstLost.expired.router.tree.leaders firstLost.links (smallKey 9) =
        [smallKey 4, smallKey 5] ∧
      firstLost.links.hasPeer (smallKey 4) = false ∧
      firstLost.links.hasPeer info.parent = true := by
  have hself : firstLost.router.pubkey = smallKey 9 := by decide +kernel
  have hfresh : firstLost.expired.router.tree.infos.lookup (smallKey 9) = none := by
    decide +kernel
  have hparent : ∀ info ∈ (fix firstLost.expired).2.router.tree.infos.lookup (smallKey 9),
      info.parent ≠ smallKey 9 := by decide +kernel
  obtain ⟨info, hinfo⟩ : ∃ info,
      (fix firstLost.expired).2.router.tree.infos.lookup (smallKey 9) = some info :=
    Option.isSome_iff_exists.mp (by decide +kernel)
  have hleaders : firstLost.expired.router.tree.leaders firstLost.links (smallKey 9) =
      [smallKey 4, smallKey 5] := by decide +kernel
  have hcheaper : firstLost.expired.router.tree.undercuts firstLost.links (smallKey 9)
      (firstLost.expired.router.tree.firstChoice firstLost.links (smallKey 9))
      (smallKey 5) = true := by decide +kernel
  have hpaid : [smallKey 4, smallKey 5].find?
      (firstLost.expired.router.tree.costsNothing firstLost.links) = none := by decide +kernel
  refine ⟨info, hinfo, hleaders, by decide +kernel, ?_⟩
  rw [← hself] at hfresh hinfo hparent hleaders hcheaper
  refine (fix_moves_onto_linked_iff firstLost_reachable hinfo ?_ (hparent info hinfo)).mpr
    ⟨.inr ⟨smallKey 5, ?_, hcheaper⟩, ?_⟩
  · rw [hfresh]
    exact nofun
  · rw [hleaders]
    exact .tail _ (.head _)
  · rw [hleaders, hpaid]
    exact nofun

end

end Roots

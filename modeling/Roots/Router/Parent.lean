import Roots.Crypto.Sample
import Roots.Router.Fix

/-!
# Roots.Router.Parent

Whether the parent `fix` moves onto has a link. The scan of `fix` starts at the current
parent if that one is still linked, and then goes over the stored answers. **Answers
outlive links**: an answer is dropped when the node settles, not when the link it came
over is. All that stands against a neighbour without a link is its cost, and costs are
only compared between neighbours that lead to the same root. So a neighbour without a
link is followed if it alone leads to the lowest root (`fix_follows_lost_peer`).
-/

namespace Roots

open Prog RouterM
open Sample (smallKey)

namespace TreeState

/-! ## The scan of `fix` -/

/-- A neighbour the scan takes into account: it has answered, its info is known, and its
way up does not lead through this node. -/
def Eligible (t : TreeState) (pubkey k : Key) : Prop :=
  k ∈ t.responses ∧ k ∈ t.infos ∧ pubkey ∉ (rootAndDists t.infos k).2

/-- The root a key's infos lead to. -/
def rootOf (t : TreeState) (k : Key) : Key := (rootAndDists t.infos k).1

/-- A neighbour without an info, or with this node on its way up, is passed over. -/
theorem consider_of_skipped {t : TreeState} {links : LinkSet} {pubkey k : Key}
    (h : k ∈ t.infos → pubkey ∈ (rootAndDists t.infos k).2) (best : Choice) :
    t.consider links pubkey best k = best := by
  unfold consider
  by_cases hinfo : k ∈ t.infos
  · rw [if_neg (not_not.mpr hinfo)]
    simp only [if_pos (h hinfo)]
  · rw [if_pos hinfo]

/-- One neighbour is passed over, or it leads to a root that is no higher. -/
theorem consider_cases (t : TreeState) (links : LinkSet) (pubkey : Key) (best : Choice) (k : Key) :
    (t.consider links pubkey best k = best ∧
      (k ∈ t.infos → pubkey ∉ (rootAndDists t.infos k).2 → best.root ≤ t.rootOf k)) ∨
    ((t.consider links pubkey best k).parent = k ∧
      (t.consider links pubkey best k).root = t.rootOf k ∧ t.rootOf k ≤ best.root ∧
      k ∈ t.infos ∧ pubkey ∉ (rootAndDists t.infos k).2) := by
  by_cases hskipped : k ∈ t.infos → pubkey ∈ (rootAndDists t.infos k).2
  · exact .inl ⟨consider_of_skipped hskipped best, fun hinfo hloop => absurd (hskipped hinfo) hloop⟩
  obtain ⟨hinfo, hloop⟩ := Classical.not_imp.mp hskipped
  unfold consider
  rw [if_neg (not_not.mpr hinfo)]
  simp only [if_neg hloop]
  split
  · rename_i hlt
    exact .inr ⟨rfl, rfl, le_of_lt (α := Nat) hlt, hinfo, hloop⟩
  · rename_i hlt
    have hle : best.root ≤ t.rootOf k := not_lt (α := Nat) |>.mp hlt
    split
    · exact .inl ⟨rfl, fun _ _ => hle⟩
    · rename_i hroot
      have heq : t.rootOf k = best.root := not_not.mp hroot
      split
      · exact .inr ⟨rfl, rfl, heq ▸ le_refl (α := Nat) _, hinfo, hloop⟩
      · exact .inl ⟨rfl, fun _ _ => hle⟩

/-- **What the scan ends at**: where it started or at an eligible neighbour, and no eligible
neighbour leads to a lower root. -/
structure Selected (t : TreeState) (links : LinkSet) (pubkey : Key) (c : Choice) : Prop where
  source : c = t.startChoice links pubkey ∨
    (t.Eligible pubkey c.parent ∧ c.root = t.rootOf c.parent)
  le_start : c.root ≤ (t.startChoice links pubkey).root
  le : ∀ k, t.Eligible pubkey k → c.root ≤ t.rootOf k

theorem selected_select (t : TreeState) (links : LinkSet) (pubkey : Key) :
    t.Selected links pubkey (t.select links pubkey) := by
  -- Over any part of the answers, what was found among those before stays in force.
  have hscan : ∀ (keys : List Key) (best : Choice), (∀ k ∈ keys, k ∈ t.responses) →
      let c := keys.foldl (t.consider links pubkey) best
      (c = best ∨ (t.Eligible pubkey c.parent ∧ c.root = t.rootOf c.parent)) ∧
        c.root ≤ best.root ∧ ∀ k ∈ keys, t.Eligible pubkey k → c.root ≤ t.rootOf k := by
    intro keys
    induction keys with
    | nil => exact fun best _ => ⟨.inl rfl, le_refl (α := Nat) _, by simp⟩
    | cons k keys ih =>
      intro best hkeys
      obtain ⟨hfrom, hle, hall⟩ := ih (t.consider links pubkey best k) fun k' hk' =>
        hkeys k' (List.mem_cons_of_mem _ hk')
      rw [List.foldl_cons]
      rcases t.consider_cases links pubkey best k with ⟨heq, hbest⟩ | ⟨hparent, hroot, hlow, hinfo⟩
      · rw [heq] at hfrom hle hall ⊢
        refine ⟨hfrom, hle, fun k' hk' hel => ?_⟩
        rcases List.mem_cons.mp hk' with rfl | hk'
        · exact le_trans (α := Nat) hle (hbest hel.2.1 hel.2.2)
        · exact hall k' hk' hel
      · refine ⟨.inr ?_, le_trans (α := Nat) hle (hroot ▸ hlow), fun k' hk' hel => ?_⟩
        · rcases hfrom with heq | hfound
          · rw [heq, hparent, hroot]
            exact ⟨⟨hkeys k (List.mem_cons_self ..), hinfo⟩, rfl⟩
          · exact hfound
        · rcases List.mem_cons.mp hk' with rfl | hk'
          · exact hroot ▸ hle
          · exact hall k' hk' hel
  obtain ⟨hfrom, hle, hall⟩ := hscan (sortKeys t.responses.keys) (t.startChoice links pubkey)
    fun k hk => AList.mem_keys.mp (mem_sortKeys.mp hk)
  exact ⟨hfrom, hle, fun k hel => hall k (mem_sortKeys.mpr (AList.mem_keys.mpr hel.1)) hel⟩

/-- The scan starts at this node itself, or at a parent that is linked and leads to a lower
root. -/
theorem startChoice_cases (t : TreeState) (links : LinkSet) (pubkey : Key) :
    t.startChoice links pubkey = ⟨pubkey, pubkey, maxU64⟩ ∨
      ∃ info, t.infos.lookup pubkey = some info ∧ links.hasPeer info.parent = true ∧
        t.rootOf pubkey < pubkey ∧ (t.startChoice links pubkey).root = t.rootOf pubkey ∧
        (t.startChoice links pubkey).parent = info.parent := by
  unfold startChoice
  cases hinfo : t.infos.lookup pubkey with
  | none => exact .inl rfl
  | some info =>
    by_cases hpeer : links.hasPeer info.parent = true
    · simp only [hpeer, if_true]
      split
      · split
        · exact .inr ⟨info, rfl, hpeer, ‹_›, rfl, rfl⟩
        · exact .inl rfl
      · exact .inl rfl
    · simp only [hpeer]
      exact .inl rfl

theorem startChoice_root_le (t : TreeState) (links : LinkSet) (pubkey : Key) :
    (t.startChoice links pubkey).root ≤ pubkey := by
  rcases t.startChoice_cases links pubkey with h | ⟨info, -, -, hlt, hroot, -⟩
  · rw [h]
    exact le_refl (α := Nat) _
  · rw [hroot]
    exact le_of_lt (α := Nat) hlt

end TreeState

section

variable [Crypto]

/-- The stand after `fix`. -/
theorem fix_stand {w : World} (hw : Inv .free w) :
    ∃ n, (fix w).2.stand = (w.router.move w.links).stand { w with tick := n } := by
  obtain ⟨n, hfix⟩ := fix_eq w
  refine ⟨n, ?_⟩
  have hn : Inv .free { w with tick := n } := { hw with }
  rw [hfix]
  exact Move.body_stand hn _ fun k res h => (Router.move_eq_follow h).2.2.2

/-- If `fix` gives this node another parent than itself, it follows that one. -/
theorem follow_of_fix {w : World} (hw : Inv .free w) {info : Info}
    (hnew : (fix w).2.router.tree.infos.lookup w.router.pubkey = some info)
    (hchanged : w.router.tree.infos.lookup w.router.pubkey ≠ some info)
    (hparent : info.parent ≠ w.router.pubkey) :
    ∃ res, w.router.move w.links = .follow info.parent res := by
  obtain ⟨n, hstand⟩ := fix_stand hw
  change (fix w).2.stand.infos.lookup w.router.pubkey = some info at hnew
  rw [hstand] at hnew
  cases hmove : w.router.move w.links with
  | stay | wait =>
    rw [hmove] at hnew
    exact absurd hnew hchanged
  | follow k res =>
    rw [hmove, Move.lookup_follow { w with tick := n }] at hnew
    exact ⟨res, by rw [← Option.some.inj hnew]; rfl⟩
  | root =>
    -- A root is its own parent.
    rw [hmove, Move.lookup_root { w with tick := n }] at hnew
    split at hnew
    · exact absurd (by rw [← Option.some.inj hnew]; rfl) hparent
    · exact absurd hnew hchanged

end

/-! ## A run -/

section

attribute [local instance] Sample.lenient

/-- The announce of a root with key 3. -/
def lowRoot : Announce where
  key := smallKey 3
  parent := smallKey 3
  res := SigRes.seal ⟨1, 7⟩ 0 (smallKey 3) (smallKey 3) (smallKey 3)
  sig := Crypto.sign (smallKey 3) []

/-- The answer of a node to a request of the node with key 9. -/
def answerOf (k : Key) (req : SigReq) : SigRes := SigRes.seal req 5 (smallKey 9) k k

/-- The answer of the root. -/
def lowAnswer (req : SigReq) : SigRes := answerOf (smallKey 3) req

/-- The node with key 9 has a link to that root, which has announced itself and answered
the request of `register`. -/
def answered : World :=
  (World.init (smallKey 9) (.even 1)).run
    [.connect (smallKey 3) 0 true, .frame 0 .announce lowRoot.encode,
      .frame 0 .sigRes (lowAnswer ⟨1, 0⟩).encode]

theorem answered_reachable : answered.Reachable := ⟨_, _, _, rfl⟩

/-- The link is lost after the answer, and `fix` makes the lost neighbour the parent. -/
theorem fix_follows_lost_peer :
    (answered.act (.disconnect 0)).Reachable ∧
      (answered.act (.disconnect 0)).expired.router.tree.infos.lookup (smallKey 9) = none ∧
      ((fix (answered.act (.disconnect 0)).expired).2.router.tree.infos.lookup
        (smallKey 9)).map Info.parent = some (smallKey 3) ∧
      (answered.act (.disconnect 0)).links.hasPeer (smallKey 3) = false :=
  ⟨answered_reachable.act _, by decide +kernel, by decide +kernel, by decide +kernel⟩

end

end Roots

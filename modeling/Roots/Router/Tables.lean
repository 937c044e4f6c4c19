import Roots.Router.Parent

/-!
# Roots.Router.Tables

The tables of the tree agree with each other: **every info has a deadline and the other
way round, only keys with an info are marked as sent, and every info reads back as an
announce that checks**. `update` and `expire` change all the tables together, the walks
behind `send_announces` stop at the first key without an info, and a foreign announce is
checked before it is adopted. Nothing checks the announce of a root: that it would pass
rests on the signature scheme (`SignCrypto`).
-/

namespace Roots

open Prog RouterM Wire Relation
open Sample (smallKey)

section

variable [Crypto]

/-- The tables of the tree agree. -/
structure TreeState.Consistent (t : TreeState) : Prop where
  deadlines : ∀ k, k ∈ t.deadlines ↔ k ∈ t.infos
  sent : ∀ p l k, t.sent.lookup p = some l → k ∈ l → k ∈ t.infos
  checked : ∀ k info, t.infos.lookup k = some info → (info.announce k).check = true

/-- The key is in the sent set of the peer. -/
def TreeState.Marked (t : TreeState) (peer k : Key) : Prop :=
  ∃ l, t.sent.lookup peer = some l ∧ k ∈ l

omit [Crypto] in
/-- What is left in the sent sets once a key was taken out of all of them. -/
theorem marked_unmark {sent : Assoc Key (List Key)} {gone p k : Key}
    (h : ∃ l, (sent.mapValues (List.filter (· ≠ gone))).lookup p = some l ∧ k ∈ l) :
    k ≠ gone ∧ ∃ l, sent.lookup p = some l ∧ k ∈ l := by
  obtain ⟨l, hlookup, hk⟩ := h
  rw [Assoc.lookup_mapValues] at hlookup
  obtain ⟨l₀, hl₀, rfl⟩ := Option.map_eq_some_iff.mp hlookup
  obtain ⟨hmem, hne⟩ := List.mem_filter.mp hk
  exact ⟨of_decide_eq_true hne, l₀, hl₀, hmem⟩

namespace TreeState.Consistent

variable {t : TreeState} (h : t.Consistent)

include h

theorem adopt (pubkey : Key) {ann : Announce} (hcheck : ann.check = true) (now : Instant) :
    (t.adopt pubkey ann now).Consistent where
  deadlines k := by
    show k ∈ t.deadlines.insert _ _ ↔ k ∈ t.infos.insert _ _
    rw [AList.mem_insert, AList.mem_insert, h.deadlines]
  sent p l k hlookup hk := by
    obtain ⟨-, l₀, hl₀, hmem⟩ := marked_unmark ⟨l, hlookup, hk⟩
    exact (AList.mem_insert _).mpr (.inr (h.sent p l₀ k hl₀ hmem))
  checked k info hlookup := by
    change (t.infos.insert ann.key ann.info).lookup k = some info at hlookup
    rw [Assoc.lookup_insert_ite] at hlookup
    split at hlookup
    · rename_i heq
      cases hlookup
      subst heq
      exact hcheck
    · exact h.checked k info hlookup

theorem forget (gone : Key) : (t.forget gone).Consistent where
  deadlines k := by
    show k ∈ t.deadlines.erase _ ↔ k ∈ t.infos.erase _
    rw [AList.mem_erase, AList.mem_erase, h.deadlines]
  sent p l k hlookup hk := by
    obtain ⟨hne, l₀, hl₀, hmem⟩ := marked_unmark ⟨l, hlookup, hk⟩
    exact AList.mem_erase.mpr ⟨hne, h.sent p l₀ k hl₀ hmem⟩
  checked k info hlookup := by
    change (t.infos.erase gone).lookup k = some info at hlookup
    rw [Assoc.lookup_erase_ite] at hlookup
    split at hlookup
    · cases hlookup
    · exact h.checked k info hlookup

theorem refreshDue (now : Instant) : (t.refreshDue now).Consistent := by
  unfold TreeState.refreshDue
  split
  · split
    · exact { h with }
    · exact h
  · exact h

omit h in
theorem foldl_forget (keys : List Key) {t : TreeState} (h : t.Consistent) :
    (keys.foldl TreeState.forget t).Consistent := by
  induction keys generalizing t with
  | nil => exact h
  | cons k keys ih => exact ih (h.forget k)

theorem expire (now : Instant) : (t.expire now).Consistent :=
  (foldl_forget (t.dead now) h).refreshDue now

end TreeState.Consistent

/-- A root signs both halves of its announce itself. -/
theorem rootAnnounce_check (law : SignCrypto) (r : Router) (req : SigReq) :
    (rootAnnounce r req).check = true := by
  have hvalid : Crypto.validKey r.pubkey = true := r.pubkey_eq ▸ law.validKey_verifyingKey r.key
  have hverify : ∀ msg, Crypto.verifyStrict r.pubkey msg (Crypto.sign r.key msg) = true :=
    fun msg => r.pubkey_eq ▸ law.verify_sign r.key msg
  simp [rootAnnounce, Announce.check, SigRes.check, SigRes.seal, SigRes.bytesForSig, hvalid, hverify]

theorem TreeState.Consistent.step (law : SignCrypto) {S : Scope} {w w' : World}
    (hstep : Step S w w') (h : w.router.tree.Consistent) : w'.router.tree.Consistent := by
  cases hstep with
  | sent _ m hm =>
    refine { h with sent := fun p l k hlookup hk => ?_ }
    rcases hm p l k hlookup hk with ⟨l₀, hl₀, hk₀⟩ | hk
    · exact h.sent p l₀ k hl₀ hk₀
    · exact hk
  | adopt _ ann t hcheck =>
    refine h.adopt _ ?_ t
    rcases hcheck with hcheck | ⟨req, rfl⟩
    · exact hcheck
    · exact rootAnnounce_check law w.router req
  | expire _ t => exact h.expire t
  | _ => exact { h with }

theorem TreeState.Consistent.walk (law : SignCrypto) {S : Scope} {w w' : World}
    (hwalk : ReflTransGen (Step S) w w') (h : w.router.tree.Consistent) :
    w'.router.tree.Consistent := by
  induction hwalk with
  | refl => exact h
  | tail _ hstep ih => exact ih.step law hstep

theorem TreeState.consistent_init : TreeState.init.Consistent where
  deadlines k := by simp [TreeState.init]
  sent := by simp [TreeState.init]
  checked := by simp [TreeState.init]

/-- Only a root has port zero. -/
theorem Announce.port_ne_zero (ann : Announce) (hcheck : ann.check = true)
    (hparent : ann.parent ≠ ann.key) : ann.res.port ≠ 0 := by
  intro hport
  simp [Announce.check, hport, hparent.symm] at hcheck

/-- **The tables of the tree agree in every reachable state**, and an info whose parent is
another node has a port. -/
theorem tables_consistent (law : SignCrypto) {w : World} (hw : w.Reachable) :
    w.router.tree.Consistent ∧
      ∀ k info, w.router.tree.infos.lookup k = some info → info.parent ≠ k →
        info.res.port ≠ 0 := by
  have hconsistent : w.router.tree.Consistent := by
    obtain ⟨seed, env, actions, rfl⟩ := hw
    induction actions using List.reverseRecOn with
    | nil => exact TreeState.consistent_init
    | append_singleton actions a ih =>
      rw [World.run_append]
      have hinv := World.inv_run seed env actions
      exact ih.walk law (a.act_walk Scope.free_open hinv (World.permits_free _ _))
  refine ⟨hconsistent, fun k info hinfo hparent => ?_⟩
  exact (info.announce k).port_ne_zero (hconsistent.checked k info hinfo) hparent

end

section

attribute [local instance] Sample.lenient

/-- A node below a root, which has sent both infos to it: its own has a port, and the sent set
is of keys it has infos of. -/
theorem tables_consistent_joined :
    (answered.act .maintain).router.tree.sent.lookup (smallKey 3) =
        some [smallKey 9, smallKey 3] ∧
      (answered.act .maintain).router.tree.Consistent ∧
      ∃ info, (answered.act .maintain).router.tree.infos.lookup (smallKey 9) = some info ∧
        info.parent ≠ smallKey 9 ∧ info.res.port ≠ 0 := by
  have hparent : ∀ info ∈ (answered.act .maintain).router.tree.infos.lookup (smallKey 9),
      info.parent ≠ smallKey 9 := by decide +kernel
  obtain ⟨info, hinfo⟩ : ∃ info,
      (answered.act .maintain).router.tree.infos.lookup (smallKey 9) = some info :=
    Option.isSome_iff_exists.mp (by decide +kernel)
  obtain ⟨hconsistent, hport⟩ := tables_consistent Sample.signCrypto (answered_reachable.act .maintain)
  exact ⟨by decide +kernel, hconsistent, info, hinfo, hparent info hinfo,
    hport _ info hinfo (hparent info hinfo)⟩

end

end Roots

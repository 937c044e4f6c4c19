import Roots.Crypto.Sample
import Roots.Router.Converge
import Roots.Router.Fanout
import Roots.Router.Tables

/-!
# Roots.Router.Announced

What the sent sets promise. A key in the set of a peer is not announced to it again, so
**its info should have come from that peer or have gone out on every link to it**
(`World.Backed`). The sets are written before the announces are, and three methods write to
them: `register` starts an empty one and replays the announces of an old one to the new
link, `handle_announce` adds what came, and `send_announces` adds what it is about to send.

The last two do not always keep the promise. A write that is refused ends `send_announces`,
and a correction only goes out on the link its announce came in on; both leave other links
of the peer behind. `announces_backed` is about the runs in which neither happens.
-/

namespace Roots

open Prog RouterM Wire Relation
open Sample (smallKey)

section

variable [Crypto]

/-! ## The promise -/

/-- What is marked as sent to a peer came from it or went out on every link to it, but for
the pairs in `pending`. -/
def World.BackedBut (heard : Key → Announce → Prop) (pending : Key → Key → Prop) (w : World) :
    Prop :=
  ∀ p k info, w.router.tree.Marked p k → w.router.tree.infos.lookup k = some info →
    ¬ pending p k → heard p (info.announce k) ∨
      ∀ id ∈ w.links.linksTo p, .wrote id .announce (info.announce k).encode ∈ w.events

/-- Everything that is marked as sent was. -/
def World.Backed (heard : Key → Announce → Prop) (w : World) : Prop :=
  w.BackedBut heard fun _ _ => False

variable {heard : Key → Announce → Prop} {pending : Key → Key → Prop} {w w' : World}

theorem World.BackedBut.backed (h : w.BackedBut heard pending)
    (hpending : ∀ p k info, w.router.tree.Marked p k → w.router.tree.infos.lookup k = some info →
      pending p k → heard p (info.announce k) ∨
        ∀ id ∈ w.links.linksTo p, .wrote id .announce (info.announce k).encode ∈ w.events) :
    w.Backed heard := fun p k info hmarked hinfo _ =>
  (Classical.em (pending p k)).elim (hpending p k info hmarked hinfo) (h p k info hmarked hinfo)

/-! ## Calm steps -/

/-- Nothing is promised: marks, infos and links go, and what was recorded stays. -/
structure Calm (w w' : World) : Prop where
  marked : ∀ p k info, w'.router.tree.Marked p k → w'.router.tree.infos.lookup k = some info →
    w.router.tree.Marked p k ∧ w.router.tree.infos.lookup k = some info
  entries : w'.links.entries.Sublist w.links.entries
  events : w.events ⊆ w'.events
  env : w'.env = w.env
  tick : w.tick ≤ w'.tick

namespace Calm

theorem refl (w : World) : Calm w w :=
  ⟨fun _ _ _ h h' => ⟨h, h'⟩, .refl _, List.Subset.refl _, rfl, le_refl _⟩

theorem trans {w'' : World} (h : Calm w w') (h' : Calm w' w'') : Calm w w'' where
  marked p k info hmarked hinfo := by
    obtain ⟨hmarked', hinfo'⟩ := h'.marked p k info hmarked hinfo
    exact h.marked p k info hmarked' hinfo'
  entries := h'.entries.trans h.entries
  events := List.Subset.trans h.events h'.events
  env := h'.env.trans h.env
  tick := h.tick.trans h'.tick

theorem linksTo (h : Calm w w') (p : Key) :
    (w'.links.linksTo p).Sublist (w.links.linksTo p) := (h.entries.filter _).map _

theorem nodup (h : Calm w w') (hids : w.links.ids.Nodup) : w'.links.ids.Nodup :=
  hids.sublist (h.entries.map _)

theorem whole (h : Calm w w') (hwhole : w.Whole) : w'.Whole :=
  hwhole.of_sublist h.entries h.env h.tick

theorem backedBut (h : Calm w w') (hbacked : w.BackedBut heard pending) :
    w'.BackedBut heard pending := by
  intro p k info hmarked hinfo hpending
  obtain ⟨hmarked', hinfo'⟩ := h.marked p k info hmarked hinfo
  refine (hbacked p k info hmarked' hinfo' hpending).imp_right fun hwrote id hid => ?_
  exact h.events (hwrote id ((h.linksTo p).subset hid))

end Calm

omit [Crypto] in
theorem TreeState.marked_expire {t : TreeState} {now : Instant} {p k : Key} {info : Info}
    (hmarked : (t.expire now).Marked p k) (hinfo : (t.expire now).infos.lookup k = some info) :
    t.Marked p k ∧ t.infos.lookup k = some info := by
  have hfold : ∀ (keys : List Key) (t : TreeState), (keys.foldl TreeState.forget t).Marked p k →
      (keys.foldl TreeState.forget t).infos.lookup k = some info →
      t.Marked p k ∧ t.infos.lookup k = some info := by
    intro keys
    induction keys with
    | nil => exact fun _ h h' => ⟨h, h'⟩
    | cons gone keys ih =>
      intro t h h'
      obtain ⟨hmarked, hinfo⟩ := ih _ h h'
      obtain ⟨hne, hmarked⟩ := marked_unmark hmarked
      change (t.infos.erase gone).lookup k = some info at hinfo
      rw [Assoc.lookup_erase_ite, if_neg hne] at hinfo
      exact ⟨hmarked, hinfo⟩
  have hsame : ∀ t : TreeState, (t.refreshDue now).sent = t.sent ∧
      (t.refreshDue now).infos = t.infos := by
    intro t
    unfold TreeState.refreshDue
    split
    · split <;> exact ⟨rfl, rfl⟩
    · exact ⟨rfl, rfl⟩
  obtain ⟨hsent, hinfos⟩ := hsame ((t.dead now).foldl TreeState.forget t)
  rw [TreeState.expire, hinfos] at hinfo
  rw [TreeState.expire, TreeState.Marked, hsent] at hmarked
  exact hfold _ t hmarked hinfo

/-- The same context with the links and the marks as they are. -/
def Scope.calm (S : Scope) : Scope := { S with rewires := False, marks := False }

theorem Step.calm {S : Scope} (h : Step S.calm w w') : Calm w w' := by
  cases h with
  | enter hrewires | join hrewires | leave hrewires => exact hrewires.elim
  | sent hmarks => exact hmarks.elim
  | tick => exact { Calm.refl w with tick := Nat.le_succ _ }
  | retire id => exact { Calm.refl w with entries := List.eraseP_sublist }
  | notes | stash | release | deliver =>
    exact { Calm.refl w with events := List.subset_append_left _ _ }
  | adopt _ ann t =>
    refine { Calm.refl w with marked := fun p k info hmarked hinfo => ?_ }
    obtain ⟨hne, hmarked⟩ := marked_unmark hmarked
    change (w.router.tree.infos.insert ann.key ann.info).lookup k = some info at hinfo
    rw [Assoc.lookup_insert_ite, if_neg hne] at hinfo
    exact ⟨hmarked, hinfo⟩
  | expire _ t =>
    exact { Calm.refl w with marked := fun p k info => TreeState.marked_expire }
  | _ => exact { Calm.refl w with }

theorem Calm.of_walk {S : Scope} (h : ReflTransGen (Step S.calm) w w') : Calm w w' := by
  induction h with
  | refl => exact .refl w
  | tail _ hstep ih => exact ih.trans hstep.calm

theorem Calm.of_obeys {α : Type} {m : RouterM α} (hw : Inv .free w)
    (hm : Obeys (rules Scope.free.calm False) m w) : Calm w (m w).2 :=
  .of_walk (hm.walk ({ hw with } : Inv Scope.free.calm w))

theorem Fanned.calm {ids : List LinkId} {ftype : FrameType} {payload : Bytes}
    (h : Fanned ids ftype payload w w') : Calm w w' where
  marked p k info hmarked hinfo := by
    rw [h.router] at hmarked hinfo
    exact ⟨hmarked, hinfo⟩
  entries := h.entries ▸ .refl _
  events _ := h.mem_events
  env := h.env
  tick := h.tick ▸ Nat.le_add_right _ _

theorem calm_refused (w : World) (id : LinkId) : Calm w (w.refused id) :=
  { Calm.refl w with entries := List.eraseP_sublist, tick := Nat.le_succ _ }

/-! ## Announcing -/

/-- A book that is backed, in a state in which it stays so. -/
structure World.Sound (heard : Key → Announce → Prop) (w : World) : Prop where
  backed : w.Backed heard
  whole : w.Whole
  nodup : w.links.ids.Nodup

theorem Calm.sound (h : Calm w w') (hsound : w.Sound heard) : w'.Sound heard :=
  ⟨h.backedBut hsound.backed, h.whole hsound.whole, h.nodup hsound.nodup⟩

/-- One announce that is marked already: it goes out on every link of the peer, or the peer
is left without one. -/
theorem sendAnnounce_cases {peer k : Key} {todo : List Key} (hwhole : w.Whole)
    (hids : w.links.ids.Nodup)
    (h : w.BackedBut heard fun p k' => p = peer ∧ k' ∈ k :: todo) :
    (∃ w', sendAnnounce peer k w = (.ok (), w') ∧ Calm w w' ∧
        w'.BackedBut heard fun p k' => p = peer ∧ k' ∈ todo) ∨
      ∃ e w', sendAnnounce peer k w = (.error e, w') ∧ Calm w w' ∧ w'.Backed heard := by
  -- The announce is off the list once its key has no info or went out.
  have hnext : ∀ {w'}, Calm w w' → (∀ info, w'.router.tree.infos.lookup k = some info →
      ∀ id ∈ w'.links.linksTo peer, .wrote id .announce (info.announce k).encode ∈ w'.events) →
      w'.BackedBut heard fun p k' => p = peer ∧ k' ∈ todo := by
    intro w' hcalm hwrote p k' info hmarked hinfo hnot
    by_cases hk : p = peer ∧ k' = k
    · obtain ⟨rfl, rfl⟩ := hk
      exact .inr (hwrote info hinfo)
    · refine hcalm.backedBut h p k' info hmarked hinfo fun hpending => ?_
      rcases List.mem_cons.mp hpending.2 with rfl | hmem
      · exact hk ⟨hpending.1, rfl⟩
      · exact hnot ⟨hpending.1, hmem⟩
  rw [sendAnnounce, router, Prog.gets_bind]
  cases hinfo : w.router.tree.infos.lookup k with
  | none =>
    refine .inl ⟨w, rfl, .refl w, hnext (.refl w) fun info hinfo' => ?_⟩
    cases hinfo.symm.trans hinfo'
  | some info =>
    dsimp only
    rw [links, Prog.gets_bind]
    by_cases hpeer : w.links.hasPeer peer = true
    · rw [if_pos hpeer]
      rcases writeAll_whole hwhole hids (LinkSet.linksTo_ne_nil.mpr hpeer) .announce
        (info.announce k).encode with ⟨w', hrun, hfan⟩ | ⟨id, w', hfan, hrun, hgone⟩
      · refine .inl ⟨w', hrun, hfan.calm, hnext hfan.calm fun info' hinfo' id hid => ?_⟩
        rw [hfan.router, hinfo] at hinfo'
        cases hinfo'
        exact hfan.wrote (hfan.linksTo_eq peer ▸ hid)
      · have hcalm := hfan.calm.trans (calm_refused w' id)
        refine .inr ⟨_, _, hrun, hcalm, (hcalm.backedBut h).backed ?_⟩
        rintro p k' info' - - ⟨rfl, -⟩
        exact .inr (by simp [hgone])
    · rw [if_neg hpeer]
      refine .inl ⟨w, rfl, .refl w, hnext (.refl w) fun _ _ id hid => ?_⟩
      exact absurd (LinkSet.linksTo_ne_nil.mp (List.ne_nil_of_mem hid)) hpeer

theorem forEach_sendAnnounce {peer : Key} (todo : List Key) (hwhole : w.Whole)
    (hids : w.links.ids.Nodup) (h : w.BackedBut heard fun p k => p = peer ∧ k ∈ todo) :
    (forEach todo (sendAnnounce peer) w).2.Sound heard := by
  induction todo generalizing w with
  | nil => exact ⟨h.backed fun p k _ _ _ hpending => absurd hpending.2 List.not_mem_nil, hwhole, hids⟩
  | cons k todo ih =>
    rcases sendAnnounce_cases hwhole hids h with ⟨w', hrun, hcalm, hbut⟩ | ⟨e, w', hrun, hcalm, hbacked⟩
    · have hrest : forEach (k :: todo) (sendAnnounce peer) w =
          forEach todo (sendAnnounce peer) w' := run_bind_ok hrun
      rw [hrest]
      exact ih (hcalm.whole hwhole) (hcalm.nodup hids) hbut
    · have hstop : forEach (k :: todo) (sendAnnounce peer) w = (.error e, w') := run_bind_error hrun
      rw [hstop]
      exact ⟨hbacked, hcalm.whole hwhole, hcalm.nodup hids⟩

/-- What is marked for a peer after its set was replaced. -/
theorem World.Backed.mark {peer : Key} {keys new : List Key} (h : w.Backed heard)
    (hkeys : ∀ k ∈ keys, k ∈ (w.router.tree.sent.lookup peer).getD [] ∨ k ∈ new) :
    World.BackedBut heard (fun p k => p = peer ∧ k ∈ new)
      { w with router.tree.sent := w.router.tree.sent.insert peer keys } := by
  rintro p k info ⟨l, hlookup, hk⟩ hinfo hnot
  change (w.router.tree.sent.insert peer keys).lookup p = some l at hlookup
  rw [Assoc.lookup_insert_ite] at hlookup
  split at hlookup
  · rename_i hp
    cases hlookup
    have hold := (hkeys k hk).resolve_right fun hnew => hnot ⟨hp, hnew⟩
    subst hp
    cases hl : w.router.tree.sent.lookup p with
    | none => simp [hl] at hold
    | some l₀ => exact h p k info ⟨l₀, hl, by simpa [hl] using hold⟩ hinfo not_false
  · exact h p k info ⟨l, hlookup, hk⟩ hinfo not_false

theorem sendAnnounces_sound (h : w.Sound heard) : (sendAnnounces w).2.Sound heard := by
  rw [sendAnnounces, router, Prog.gets_bind]
  refine snd_forEach h fun peer _ w' hw' => ?_
  exact forEach_sendAnnounce _ hw'.whole hw'.nodup (hw'.backed.mark fun k => mem_unsent_or)

/-- A maintenance tick. -/
theorem maintain_sound (hinv : Inv .free w) (h : w.Sound heard) : (maintain w).2.Sound heard := by
  have hexpire := Calm.of_obeys hinv (expireTree_allows trivial w)
  refine snd_bind (hexpire.sound h) fun _ w₁ h₁ hsound₁ => ?_
  have hinv₁ : Inv .free w₁ := hinv.of_allows (expireTree_allows trivial) h₁
  have hfix := Calm.of_obeys hinv₁ (fix_allows trivial trivial trivial w₁)
  refine snd_bind (hfix.sound hsound₁) fun _ w₂ h₂ hsound₂ => ?_
  have hinv₂ : Inv .free w₂ := hinv₁.of_allows (fix_allows trivial trivial trivial) h₂
  refine snd_bind (sendAnnounces_sound hsound₂) fun _ w₃ h₃ hsound₃ => ?_
  have hinv₃ : Inv .free w₃ := hinv₂.of_allows (sendAnnounces_allows trivial) h₃
  have hrest : (rules Scope.free.calm False).Allows (do bloomMaintenance; sweep) :=
    .bind (bloomMaintenance_allows trivial) fun _ => sweep_allows False.elim trivial trivial
  exact (Calm.of_obeys hinv₃ (hrest w₃)).sound hsound₃

/-! ## Announces that come in -/

theorem Calm.refreshed (w : World) : Calm w { w with router.tree.refresh := true } :=
  { Calm.refl w with }

/-- A key is added to the sent set of a peer. -/
def World.mark (w : World) (peer k : Key) : World :=
  { w with router.tree.sent :=
      w.router.tree.sent.insert peer (((w.router.tree.sent.lookup peer).getD []).insert k) }

/-- `handle_announce` promises nothing but the key of the announce to the peer it came from. -/
theorem handleAnnounce_eq (hinv : Inv .free w) (peer : Key) {ann : Announce}
    (hcheck : ann.check = true) :
    ∃ w₁, Calm w w₁ ∧ w₁.links = w.links ∧
      w₁.router.tree.infos = (if w.router.tree.adopts ann then
        w.router.tree.infos.insert ann.key ann.info else w.router.tree.infos) ∧
      handleAnnounce peer ann w = (.ok (w.correction ann), w₁.mark peer ann.key) := by
  have hcalm := Calm.of_obeys hinv (updateTree_obeys trivial (.inl hcheck))
  rw [updateTree_run] at hcalm
  have hinfos := w.router.tree.infos_update w.router.pubkey ann (w.env.now w.tick)
  have hfst := (handleAnnounce_run peer ann w).1
  by_cases hself : w.router.tree.adopts ann = true ∧ ann.key = w.router.pubkey
  · refine ⟨_, hcalm.trans (Calm.refreshed _), rfl, hinfos, Prod.ext hfst ?_⟩
    rw [handleAnnounce, router, Prog.gets_bind, run_bind_ok (updateTree_run ann w), if_pos hself,
      if_pos hself.1]
    rfl
  · refine ⟨_, hcalm, rfl, hinfos, Prod.ext hfst ?_⟩
    rw [handleAnnounce, router, Prog.gets_bind, run_bind_ok (updateTree_run ann w), if_neg hself]
    split_ifs
    · rfl
    · cases w.router.tree.infos.lookup ann.key with
      | none => rfl
      | some info =>
        dsimp only
        split_ifs <;> rfl

/-- An announce that came from a peer is marked for it, and what is known instead goes back on
the link it came from. -/
theorem handleAnnounce_backed (hinv : Inv .free w) (h : w.Backed heard) {conn : LinkId}
    {peer : Key} (hpeer : w.links.peerOf conn = some peer) {ann : Announce}
    (hcheck : ann.check = true) (hheard : heard peer ann)
    (hsolo : w.correction ann ≠ none → (w.links.linksTo peer).length ≤ 1) :
    ((do
      let reply ← handleAnnounce peer ann
      match reply with
      | some better => write conn .announce better.encode
      | none => return () : RouterM Unit) w).2.Backed heard := by
  obtain ⟨w₁, hcalm, hlinks, hinfos, hrun⟩ := handleAnnounce_eq hinv peer hcheck
  rw [run_bind_ok hrun]
  have hbut : (w₁.mark peer ann.key).BackedBut heard fun p k => p = peer ∧ k ∈ [ann.key] := by
    refine World.Backed.mark (hcalm.backedBut h) fun k hk => ?_
    exact (List.mem_insert_iff.mp hk).symm.imp_right List.mem_singleton.mpr
  cases hcorr : w.correction ann with
  | none =>
    -- The info is the one that came.
    refine hbut.backed fun p k info _ hinfo hpending => .inl ?_
    obtain ⟨rfl, hk⟩ := hpending
    obtain rfl := List.mem_singleton.mp hk
    have hsame : info = ann.info := by
      change w₁.router.tree.infos.lookup ann.key = some info at hinfo
      rw [World.correction] at hcorr
      rw [hinfos] at hinfo
      split_ifs at hcorr hinfo with hadopts
      · rw [AList.lookup_insert, Option.some.injEq] at hinfo
        exact hinfo.symm
      · rw [hinfo] at hcorr
        by_contra hne
        simp [hne] at hcorr
    rw [hsame]
    exact hheard
  | some better =>
    obtain ⟨info, hinfo, -, -, rfl⟩ := World.correction_eq_some.mp hcorr
    have hadopts : w.router.tree.adopts ann = false := by
      by_contra hadopts
      rw [World.correction, if_pos ((Bool.not_eq_false _).mp hadopts)] at hcorr
      cases hcorr
    rw [hadopts, if_neg Bool.false_ne_true] at hinfos
    -- The link it came on is the only one.
    obtain ⟨e, he, rfl, rfl⟩ := LinkSet.exists_of_peerOf hpeer
    have hlive : e.id ∈ (w₁.mark e.peer ann.key).links.ids := by
      show e.id ∈ w₁.links.ids
      rw [hlinks]
      exact List.mem_map_of_mem he
    have honly : ∀ id ∈ w.links.linksTo e.peer, id = e.id := by
      obtain ⟨i, hi⟩ := List.length_eq_one_iff.mp (le_antisymm (hsolo (by simp [hcorr]))
        (List.length_pos_of_mem (LinkSet.mem_linksTo.mpr he)))
      have hmem := LinkSet.mem_linksTo.mpr he
      rw [hi, List.mem_singleton] at hmem
      intro id hid
      rw [hi, List.mem_singleton] at hid
      exact hid.trans hmem.symm
    have hback : ∀ {v : World}, Calm (w₁.mark e.peer ann.key) v →
        v.router.tree.infos = w₁.router.tree.infos →
        (∀ id ∈ v.links.linksTo e.peer, .wrote id .announce (info.announce ann.key).encode ∈ v.events) →
        v.Backed heard := by
      intro v hcalm' hsame hwrote
      refine (hcalm'.backedBut hbut).backed fun p k info' _ hinfo' hpending => .inr ?_
      obtain ⟨rfl, hk⟩ := hpending
      obtain rfl := List.mem_singleton.mp hk
      rw [hsame, hinfos, hinfo, Option.some.injEq] at hinfo'
      exact hinfo' ▸ hwrote
    dsimp only
    rcases write_cases hlive .announce (info.announce ann.key).encode with
      ⟨v, hrun', hfan⟩ | ⟨-, hrun'⟩
    · rw [hrun']
      refine hback hfan.calm (congrArg (fun r => r.tree.infos) hfan.router) fun id hid => ?_
      rw [hfan.linksTo_eq] at hid
      change id ∈ w₁.links.linksTo e.peer at hid
      rw [hlinks] at hid
      exact honly id hid ▸ hfan.wrote (List.mem_singleton.mpr rfl)
    · rw [hrun']
      refine hback (calm_refused _ _) rfl fun id hid => ?_
      have hnodup : (w₁.mark e.peer ann.key).links.ids.Nodup := by
        show w₁.links.ids.Nodup
        rw [hlinks]
        exact hinv.nodup
      obtain ⟨hmem, hne⟩ := (LinkSet.mem_linksTo_remove hnodup).mp hid
      change id ∈ w₁.links.linksTo e.peer at hmem
      rw [hlinks] at hmem
      exact absurd (honly id hmem) hne

/-! ## New links -/

theorem writeConn_ok {id : LinkId} {ftype : FrameType} {payload : Bytes}
    (h : writeConn id ftype payload w = (.ok (), w')) : .wrote id ftype payload ∈ w'.events := by
  rw [writeConn_run] at h
  split at h
  · cases h
    exact List.mem_append_right _ (List.mem_singleton.mpr rfl)
  · cases h

/-- What the turn of one of the keys writes has been written when the loop is through. -/
theorem forEach_wrote {body : Key → RouterM Unit}
    (hbody : ∀ k, (rules Scope.free False).Allows (body k)) {k : Key} {e : Event}
    (hwrote : ∀ v v', body k v = (.ok (), v') → e ∈ v'.events) :
    ∀ {keys : List Key} {v v' : World}, Inv .free v → forEach keys body v = (.ok (), v') →
      k ∈ keys → e ∈ v'.events := by
  intro keys
  induction keys with
  | nil => exact fun _ _ hk => absurd hk List.not_mem_nil
  | cons x keys ih =>
    intro v v' hv hrun hk
    obtain ⟨_, v₁, hfirst, hrest⟩ := run_bind_eq_ok hrun
    have hv₁ : Inv .free v₁ := hv.of_allows (hbody x) hfirst
    rcases List.mem_cons.mp hk with rfl | hk
    · have hwalk := (Rules.Allows.forEach (l := keys) (fun x _ => hbody x) v₁).walk_of_eq hv₁ hrest
      exact events_subset_of_walk hwalk (hwrote v v₁ hfirst)
    · exact ih hv₁ hrest hk

/-- The replay writes every announce that is marked for the peer. -/
theorem replay_wrote (hinv : Inv .free w) {id : LinkId} {peer : Key}
    (h : replay id peer w = (.ok (), w')) {k : Key} {info : Info}
    (hmarked : w.router.tree.Marked peer k) (hinfo : w.router.tree.infos.lookup k = some info) :
    .wrote id .announce (info.announce k).encode ∈ w'.events := by
  obtain ⟨l, hl, hk⟩ := hmarked
  obtain ⟨_, w₁, h₁, h⟩ := run_bind_eq_ok h
  cases h₁
  obtain ⟨keys, w₂, h₂, h⟩ := run_bind_eq_ok h
  cases h₂
  refine forEach_wrote (k := k) (fun k => ?_) (fun v v' hrun => ?_) (hinv.step .tick) h
    (((w.env.order _).perm _).mem_iff.mpr ?_)
  · split
    · exact .pure _
    · exact writeConn_allows (Writes.wrote (by decide) (by decide)) _ _
  · rw [show w.router.tree.infos.lookup k = some info from hinfo] at hrun
    exact writeConn_ok hrun
  · rw [hl]
    exact hk

theorem enterLink_calm (id : LinkId) (peer : Key) (prio : UInt8) (port order : UInt64)
    (req : SigReq) : Calm w (enterLink id peer prio port order req w).2 :=
  { Calm.refl w with marked := fun _ _ _ hmarked hinfo => ⟨mem_sent_orInsert hmarked, hinfo⟩ }

/-- The tables are entered without a promise, and then the peer is greeted. -/
theorem register_greets (hinv : Inv .free w) {id : LinkId} (hnew : id ∉ w.links.ids) (peer : Key)
    (prio : UInt8) :
    ∃ req v, Calm w v ∧ Inv .free v ∧
      register id peer prio w = greet id peer req (decide (peer ∈ w.router.tree.peers)) v := by
  have hcalm₀ : Inv Scope.free.calm w := { hinv with }
  obtain ⟨port, order, req, v, hwalk, hsame, hrun⟩ := register_enters trivial hcalm₀ id peer prio
  have hv : Inv Scope.free.calm v := Rules.inv_of_walk (R := rules _ False) hwalk hcalm₀
  rw [← hsame.links] at hnew
  have henter : Obeys (rules .free False) (enterLink id peer prio port order req) v :=
    enterLink_obeys trivial trivial trivial trivial hnew _ _ _ _ _
  exact ⟨req, _, (Calm.of_walk hwalk).trans (enterLink_calm id peer prio port order req),
    henter.inv_of_eq { hv with } rfl, hrun.trans (run_bind_ok rfl)⟩

/-- Registering a link promises nothing new, and the link gets all that is promised. -/
theorem register_calm (hinv : Inv .free w) {id : LinkId} (hnew : id ∉ w.links.ids) (peer : Key)
    (prio : UInt8) :
    Calm w (register id peer prio w).2 ∧
      ∀ w', register id peer prio w = (.ok (), w') → ∀ k info, w'.router.tree.Marked peer k →
        w'.router.tree.infos.lookup k = some info →
        .wrote id .announce (info.announce k).encode ∈ w'.events := by
  obtain ⟨req, v, hcalm, hv, hrun⟩ := register_greets hinv hnew peer prio
  have hgreet := hcalm.trans (Calm.of_obeys hv
    (greet_allows trivial id peer req (decide (peer ∈ w.router.tree.peers)) v))
  rw [hrun]
  refine ⟨hgreet, fun w' h k info hmarked hinfo => ?_⟩
  by_cases hknown : peer ∈ w.router.tree.peers
  · obtain ⟨_, v₁, h₁, h⟩ := run_bind_eq_ok h
    have hv₁ : Inv .free v₁ := hv.of_allows (sendFilter_allows trivial id peer) h₁
    obtain ⟨_, v₂, h₂, h⟩ := run_bind_eq_ok h
    have hv₂ : Inv .free v₂ :=
      hv₁.of_allows (writeConn_allows (Writes.wrote (by decide) (by decide)) _ _) h₂
    rw [if_pos (decide_eq_true hknown)] at h
    have hreplay := Calm.of_obeys hv₂ (replay_allows id peer v₂)
    rw [h] at hreplay
    obtain ⟨hmarked', hinfo'⟩ := hreplay.marked peer k info hmarked hinfo
    exact replay_wrote hv₂ h hmarked' hinfo'
  · -- The peer had no set yet.
    rw [h] at hgreet
    obtain ⟨⟨l, hl, -⟩, -⟩ := hgreet.marked peer k info hmarked hinfo
    exact absurd (hinv.known peer (Assoc.mem_iff_lookup.mpr ⟨l, hl⟩)) hknown

/-- A connection that is kept has been sent everything that is promised to its peer. -/
theorem connect_backed (hinv : Inv .free w) (h : w.Backed heard) (peer : Key) (prio : UInt8)
    (kept : Bool) : (connect peer prio kept w).2.Backed heard := by
  have hmint : Calm w { w with nextLink := w.nextLink + 1 } := { Calm.refl w with }
  have hinv₁ : Inv .free { w with nextLink := w.nextLink + 1 } := hinv.step .mint
  have hnew : w.nextLink ∉ { w with nextLink := w.nextLink + 1 }.links.ids := hinv.nextLink_new
  obtain ⟨hcalm, hcovers⟩ := register_calm hinv₁ hnew peer prio
  have hbacked := hcalm.backedBut (hmint.backedBut h)
  rw [connect_eq]
  refine snd_bind hbacked fun _ w' h' hbacked' => ?_
  cases kept with
  | false => exact hbacked'
  | true =>
    intro p k info hmarked hinfo hnot
    refine (hbacked' p k info hmarked hinfo hnot).imp_right fun hwrote id hid => ?_
    have hmem : ⟨id, p⟩ ∈ w'.links.entries ++ [⟨w.nextLink, peer⟩] := LinkSet.mem_linksTo.mp hid
    rcases List.mem_append.mp hmem with hmem | hmem
    · exact hwrote id (LinkSet.mem_linksTo.mpr hmem)
    · cases List.mem_singleton.mp hmem
      exact hcovers w' h' k info hmarked hinfo

/-! ## Runs -/

/-- What an action must not do: announce while a fan-out could leave a link behind, or bring
an announce that is answered on one of several links. -/
def World.FansOut (w : World) : Action → Prop
  | .maintain => w.Whole
  | .frame conn .announce payload =>
      ∀ peer ann, w.links.peerOf conn = some peer → Announce.decodeExact payload = .ok ann →
        w.correction ann ≠ none → (w.links.linksTo peer).length ≤ 1
  | _ => True

/-- The peer sent the announce in a run. -/
def World.Heard (w : World) (actions : List Action) (peer : Key) (ann : Announce) : Prop :=
  ∃ before conn payload after, actions = before ++ .frame conn .announce payload :: after ∧
    (w.run before).links.peerOf conn = some peer ∧ Announce.decodeExact payload = .ok ann

theorem frame_backed (hinv : Inv .free w) (h : w.Backed heard) {conn : LinkId} {payload : Bytes}
    (hfans : w.FansOut (.frame conn .announce payload))
    (hheard : ∀ peer ann, w.links.peerOf conn = some peer →
      Announce.decodeExact payload = .ok ann → heard peer ann) :
    (dispatchFrame conn .announce payload w).2.Backed heard := by
  rw [dispatchFrame, links, Prog.gets_bind]
  cases hpeer : w.links.peerOf conn with
  | none => exact h
  | some peer =>
    refine snd_bind ?_ fun _ w' h' hbacked => ?_
    · cases hdecode : Announce.decodeExact payload with
      | error e' =>
        cases Announce.decodeExact_refuses payload e' hdecode
        rw [handleFrame, hdecode]
        exact h
      | ok ann =>
        rw [handleFrame, hdecode, show ifOk (.ok ann) = (pure (some ann) : RouterM _) from rfl,
          Prog.pure_bind']
        dsimp only
        by_cases hcheck : ann.check = true
        · rw [if_pos hcheck]
          exact handleAnnounce_backed hinv h hpeer hcheck (hheard _ ann hpeer hdecode)
            (hfans _ ann hpeer hdecode)
        · rw [if_neg hcheck]
          exact h
    · have hidle : (rules Scope.free.calm False).Allows (keepaliveIfIdle conn) :=
        keepaliveIfIdle_allows conn
      exact (Calm.of_obeys (inv_handleFrame hinv hpeer h') (hidle w')).backedBut hbacked

theorem act_calm (hinv : Inv .free w) (a : Action) (hfits : Scope.free.calm.Fits a) :
    Calm w (w.act a) :=
  Calm.of_obeys hinv (a.body_obeys False.elim hfits
    (w.permits_all (fun _ _ => trivial) (fun _ _ => trivial) (fun _ => trivial) a))

theorem act_backed (hinv : Inv .free w) (h : w.Backed heard) (a : Action) (hfans : w.FansOut a)
    (hheard : ∀ conn payload peer ann, a = .frame conn .announce payload →
      w.links.peerOf conn = some peer → Announce.decodeExact payload = .ok ann → heard peer ann) :
    (w.act a).Backed heard := by
  cases a with
  | connect peer prio kept => exact connect_backed hinv h peer prio kept
  | disconnect id =>
    have hcalm : Calm w (w.act (.disconnect id)) :=
      { Calm.refl w with entries := List.eraseP_sublist }
    exact hcalm.backedBut h
  | maintain => exact (maintain_sound hinv ⟨h, hfans, hinv.nodup⟩).backed
  | frame conn ftype payload =>
    cases ftype with
    | announce => exact frame_backed hinv h hfans fun peer ann => hheard conn payload peer ann rfl
    | _ =>
      refine (act_calm hinv _ ?_).backedBut h
      trivial
  | _ =>
    refine (act_calm hinv _ ?_).backedBut h
    trivial

theorem World.Backed.mono {heard' : Key → Announce → Prop} (h : w.Backed heard)
    (hheard : ∀ peer ann, heard peer ann → heard' peer ann) : w.Backed heard' :=
  fun p k info hmarked hinfo hnot => (h p k info hmarked hinfo hnot).imp_left (hheard p _)

theorem World.Heard.append {w₀ : World} {actions more : List Action} {peer : Key} {ann : Announce}
    (h : w₀.Heard actions peer ann) : w₀.Heard (actions ++ more) peer ann := by
  obtain ⟨before, conn, payload, after, rfl, hpeer, hdecode⟩ := h
  exact ⟨before, conn, payload, after ++ more, by simp, hpeer, hdecode⟩

/-- **What is marked as sent to a peer came from it or went out on every link to it**, in every
run in which no fan-out can leave a link behind. -/
theorem announces_backed {seed : Key} {env : Env} {actions : List Action}
    (h : (World.init seed env).Along World.FansOut actions) {p k : Key} {l : List Key} {info : Info}
    (hsent : ((World.init seed env).run actions).router.tree.sent.lookup p = some l) (hk : k ∈ l)
    (hinfo : ((World.init seed env).run actions).router.tree.infos.lookup k = some info) :
    (World.init seed env).Heard actions p (info.announce k) ∨
      ∀ id ∈ ((World.init seed env).run actions).links.linksTo p,
        .wrote id .announce (info.announce k).encode ∈
          ((World.init seed env).run actions).events := by
  have hbacked : ((World.init seed env).run actions).Backed ((World.init seed env).Heard actions) := by
    clear hsent hinfo
    induction actions using List.reverseRecOn with
    | nil =>
      rintro p k info ⟨l, hl, -⟩
      cases hl
    | append_singleton actions a ih =>
      obtain ⟨hbefore, hlast⟩ := World.along_append.mp h
      have hinv := World.inv_run seed env actions
      rw [World.run_append]
      refine act_backed hinv ((ih hbefore).mono fun _ _ => .append) a hlast.1 ?_
      rintro conn payload peer ann rfl hpeer hdecode
      exact ⟨actions, conn, payload, [], rfl, hpeer, hdecode⟩
  exact hbacked p k info ⟨l, hsent, hk⟩ hinfo not_false

end

/-! ## A link that is left behind -/

section

attribute [local instance] Sample.lenient

/-- A peer connects, once or twice, and the router becomes a root and says so. -/
def joining (links : Nat) : List Action :=
  List.replicate links (.connect (smallKey 3) 0 true) ++ [.maintain]

def joined (links n : Nat) : World :=
  (World.init (smallKey 9) (.refusing n)).run (joining links)

/-- The first of two links refuses the announce. It is marked as sent, and the other link is
there and has not got it. -/
theorem joined_facts :
    (joined 2 18).router.tree.sent.lookup (smallKey 3) = some [smallKey 9] ∧
      ((joined 2 18).router.tree.infos.lookup (smallKey 9)).isSome = true ∧
      (joined 2 18).links.entries = [⟨1, smallKey 3⟩] ∧
      (joined 2 18).events.all (fun e => match e with
        | .wrote _ .announce _ => false
        | _ => true) = true := by decide +kernel

theorem not_backed_joined :
    ∃ info, (joined 2 18).router.tree.sent.lookup (smallKey 3) = some [smallKey 9] ∧
      (joined 2 18).router.tree.infos.lookup (smallKey 9) = some info ∧
      (joined 2 18).links.hasPeer (smallKey 3) = true ∧
      ¬ ((World.init (smallKey 9) (.refusing 18)).Heard (joining 2) (smallKey 3)
            (info.announce (smallKey 9)) ∨
        ∀ id ∈ (joined 2 18).links.linksTo (smallKey 3),
          .wrote id .announce (info.announce (smallKey 9)).encode ∈
            (joined 2 18).events) := by
  obtain ⟨hsent, hinfo, hentries, hnone⟩ := joined_facts
  obtain ⟨info, hinfo⟩ := Option.isSome_iff_exists.mp hinfo
  have hlive : 1 ∈ (joined 2 18).links.linksTo (smallKey 3) := by
    rw [LinkSet.mem_linksTo, hentries]
    exact List.mem_singleton.mpr rfl
  refine ⟨info, hsent, hinfo, LinkSet.linksTo_ne_nil.mp (List.ne_nil_of_mem hlive), ?_⟩
  rintro (⟨before, conn, payload, after, hsplit, -⟩ | hwrote)
  · -- No frame ever came.
    have hmem : Action.frame conn .announce payload ∈ joining 2 := by
      rw [hsplit]
      simp
    simp [joining] at hmem
  · have hfalse := List.all_eq_true.mp hnone _ (hwrote 1 hlive)
    cases hfalse

/-- With one link the announce goes out. -/
theorem announces_backed_joined :
    (World.init (smallKey 9) (.refusing 0)).Along World.FansOut (joining 1) ∧
      ∃ info, (joined 1 0).router.tree.infos.lookup (smallKey 9) = some info ∧
        ((World.init (smallKey 9) (.refusing 0)).Heard (joining 1) (smallKey 3)
            (info.announce (smallKey 9)) ∨
          ∀ id ∈ (joined 1 0).links.linksTo (smallKey 3),
            .wrote id .announce (info.announce (smallKey 9)).encode ∈
              (joined 1 0).events) := by
  have hfacts : ((World.init (smallKey 9) (.refusing 0)).act
        (.connect (smallKey 3) 0 true)).links.entries = [⟨0, smallKey 3⟩] ∧
      (joined 1 0).router.tree.sent.lookup (smallKey 3) = some [smallKey 9] ∧
      ((joined 1 0).router.tree.infos.lookup (smallKey 9)).isSome = true := by decide +kernel
  obtain ⟨hentries, hsent, hinfo⟩ := hfacts
  obtain ⟨info, hinfo⟩ := Option.isSome_iff_exists.mp hinfo
  have halong : (World.init (smallKey 9) (.refusing 0)).Along World.FansOut (joining 1) := by
    refine ⟨trivial, .inl fun peer => ?_, trivial⟩
    rw [LinkSet.linksTo, hentries, List.length_map]
    exact List.length_filter_le _ _
  unfold joined at hsent hinfo ⊢
  exact ⟨halong, info, hinfo, announces_backed halong hsent (List.mem_singleton.mpr rfl) hinfo⟩

end

end Roots

import Roots.Router.Rules.Driver

/-!
# Roots.Router.Rumor

What a send and a notify do to the rumor of their key, at a node that has no neighbour on
the tree yet and so multicasts to nobody. A send without a path leaves a sealed message in
the rumor and the rumor's mark as it was; a notify that is news passes what an application
left there to `session_send`.
-/

namespace Roots

open Prog RouterM Relation

variable [Crypto]

/-! ## Events -/

/-- What a first part of a program records is still there after the second. -/
theorem mem_events_bind {α β : Type} {m : RouterM α} {f : α → RouterM β} {w : World}
    (hw : Inv .free w) (hm : Obeys (rules .free False) m w)
    (hf : ∀ a, (rules .free False).Allows (f a)) {e : Event} (h : e ∈ (m w).2.events) :
    e ∈ ((m >>= f) w).2.events := by
  rw [run_bind]
  split
  · rename_i a w' hrun
    rw [hrun] at h
    exact events_subset_of_walk ((hf a w').walk (hm.inv_of_eq hw hrun)) h
  · rename_i hrun
    rwa [hrun] at h

/-! ## Sending -/

section Leaf

variable (netSend : NetSend) (dest : Key) {w : World} (hleaf : w.router.treePeers = [])

include hleaf

theorem multicast_leaf (srcKey toKey : Key) (ftype : FrameType) (payload : Bytes) :
    multicast srcKey toKey ftype payload w = (.ok (), w) := by
  rw [multicast, router, Prog.gets_bind, hleaf]
  rfl

variable (hfar : xkey dest ≠ xkey w.router.pubkey)

include hfar

theorem sendLookup_leaf : sendLookup netSend dest w = (.ok (), w) := by
  rw [sendLookup, router, Prog.gets_bind, handleLookup, run_bind_ok (multicast_leaf hleaf _ _ _ _),
    router, Prog.gets_bind, if_pos hfar]
  rfl

/-- A lookup keeps what the rumor of its key holds, and its mark. -/
theorem rumorLookup_leaf {r : RumorEntry} (hr : w.router.path.rumors.lookup (xkey dest) = some r) :
    ∃ p r', rumorLookup netSend dest w =
        (.ok (), { w with tick := w.tick + 1, router.path := p }) ∧
      p.rumors.lookup (xkey dest) = some r' ∧ r'.pending = r.pending ∧
      r'.pendingIsApp = r.pendingIsApp := by
  rw [rumorLookup, now, draw_bind, router, Prog.gets_bind]
  split
  · exact ⟨w.router.path, r, rfl, hr, rfl, rfl⟩
  · rw [modifyPath, Prog.modify_bind]
    refine ⟨_, { r with sendAt := some (w.env.now w.tick), deadline := w.env.now w.tick + pathTimeout },
      sendLookup_leaf netSend dest hleaf hfar, ?_, rfl, rfl⟩
    change ((w.router.path.rumors.orInsert (xkey dest) _).modify (xkey dest) _).lookup _ = _
    rw [Assoc.lookup_modify, if_pos rfl, Assoc.lookup_orInsert, if_pos rfl, hr]
    rfl

/-- Without a path, the sealed message takes the place of what the rumor held, and the
rumor's mark stays. -/
theorem pathfinderSend_leaf (hpath : w.router.path.workingPath dest = none) {r : RumorEntry}
    (hr : w.router.path.rumors.lookup (xkey dest) = some r) (payload : Bytes) :
    ∃ r', (pathfinderSend netSend dest payload w).2.router.path.rumors.lookup (xkey dest) = some r' ∧
      r'.pending = some ⟨payload, .sealed⟩ ∧ r'.pendingIsApp = r.pendingIsApp := by
  obtain ⟨p, r', hrun, hr', -, hmark⟩ := rumorLookup_leaf netSend dest hleaf hfar hr
  rw [pathfinderSend, router, Prog.gets_bind, hpath]
  show ∃ r', ((rumorLookup netSend dest >>= fun _ => stash dest payload) w).2.router.path.rumors.lookup
    (xkey dest) = some r' ∧ _
  rw [run_bind_ok hrun]
  refine ⟨{ r' with pending := some ⟨payload, .sealed⟩ }, ?_, rfl, hmark⟩
  change (p.rumors.modify (xkey dest) _).lookup (xkey dest) = _
  rw [Assoc.lookup_modify, if_pos rfl, hr']
  rfl

/-- A packet is held in the rumor it is looked up with, which is marked. -/
theorem holdForLookup_leaf (payload : Payload) :
    ∃ r, (holdForLookup netSend dest payload w).2.router.path.rumors.lookup (xkey dest) = some r ∧
      r.pending = some payload ∧ r.pendingIsApp = true := by
  obtain ⟨p, hp⟩ : ∃ p, p = (w.router.path.openRumor dest (w.env.now w.tick)).modifyRumor (xkey dest)
    fun e => { e with pending := some payload, pendingIsApp := true } := ⟨_, rfl⟩
  obtain ⟨r, hr, hpending, hmark⟩ : ∃ r, p.rumors.lookup (xkey dest) = some r ∧
      r.pending = some payload ∧ r.pendingIsApp = true := by
    subst hp
    change ∃ r, ((w.router.path.rumors.orInsert (xkey dest) _).modify (xkey dest) _).lookup _ = _ ∧ _
    rw [Assoc.lookup_modify, if_pos rfl, Assoc.lookup_orInsert, if_pos rfl]
    exact ⟨_, rfl, rfl, rfl⟩
  rw [holdForLookup, now, draw_bind, router, Prog.gets_bind, modifyPath, Prog.modify_bind, ← hp]
  split
  · exact ⟨r, hr, hpending, hmark⟩
  · obtain ⟨p', r', hrun, hr', hpending', hmark'⟩ := rumorLookup_leaf netSend dest
      (w := { w with tick := w.tick + 1, router.path := p }) hleaf hfar hr
    rw [hrun]
    exact ⟨r', hr', hpending'.trans hpending, hmark'.trans hmark⟩

end Leaf

/-- A packet for an address nothing is known about is held. -/
theorem sendOrResolve_leaf {w : World} {via : LinkId} (hlive : via ∈ w.links.ids)
    (hpaths : w.router.path.entries.keys = []) (hsessions : w.router.sess.sessions.keys = [])
    (hleaf : w.router.treePeers = []) {a : Address}
    (hfar : xkey (lookupKeyForAddr a) ≠ xkey w.router.pubkey) (b : Bytes) :
    ∃ r, (w.act (.sendOrResolve via a b)).router.path.rumors.lookup (xkey (lookupKeyForAddr a)) =
        some r ∧
      r.pending = some ⟨b, .addressed a⟩ ∧ r.pendingIsApp = true := by
  have hnil : ∀ n, (w.env.order n).run [] = [] := fun n => ((w.env.order n).perm []).eq_nil
  have hkey : RouterM.keyForAddr a w = (.ok none, { w with tick := w.tick + 2 }) := by
    simp [RouterM.keyForAddr, router, iterate, draw, run_bind, hpaths, hsessions, hnil]
  show ∃ r, (sendOrResolve via a b w).2.router.path.rumors.lookup _ = some r ∧ _
  rw [sendOrResolve, links, Prog.gets_bind, LinkSet.isNone_peerOf hlive,
    if_neg Bool.false_ne_true, run_bind_ok hkey]
  exact holdForLookup_leaf netSend _ (w := { w with tick := w.tick + 2 }) hleaf hfar _

/-- Without a session either, a request puts the init of the session there. -/
theorem request_leaf {dest : Key} {w : World} (hleaf : w.router.treePeers = [])
    (hfar : xkey dest ≠ xkey w.router.pubkey) (hpath : w.router.path.workingPath dest = none)
    (hsession : dest ∉ w.router.sess.sessions) (hpoint : (edToCurvePub dest).isSome)
    {r : RumorEntry} (hr : w.router.path.rumors.lookup (xkey dest) = some r)
    (payload : Bytes) :
    ∃ r' b, (w.act (.request dest payload)).router.path.rumors.lookup (xkey dest) = some r' ∧
      r'.pending = some ⟨b, .sealed⟩ ∧ r'.pendingIsApp = r.pendingIsApp := by
  show ∃ r' b,
    (sessionSendKind netSend dest packetTypeProto ⟨payload, .proto⟩ w).2.router.path.rumors.lookup
      _ = some r' ∧ _
  rw [sessionSendKind, router, Prog.gets_bind, if_neg hsession, now, draw_bind]
  simp only [takeInitSeq, unixNow, fresh, router, modifySess, displace, run_bind, draw, run_gets,
    run_modify, run_pure, encryptInit_run]
  generalize henc : SessionInit.encryptMsg _ sessionTypeInit w.router.key dest _ = enc
  cases enc with
  | none =>
    rw [← SessionInit.encryptMsg_isSome, henc] at hpoint
    cases hpoint
  | some enc =>
    -- The init leaves from a state with the same tables but for the sessions.
    generalize hw : World.mk _ _ _ _ _ _ _ = w'
    have hsend := pathfinderSend_leaf (netSendDepth 1) dest (w := w') (r := r)
    subst hw
    obtain ⟨r', hr', hpending, hmark⟩ := hsend hleaf hfar hpath hr enc
    exact ⟨r', enc, hr', hpending, hmark⟩

/-! ## Notifies -/

/-- A first notify is news to a node that asked. -/
theorem PathState.isNews_of_rumor {p : PathState} (notify : PathNotify)
    (hnone : notify.source ∉ p.entries) (hrumor : xkey notify.source ∈ p.rumors)
    (hcheck : notify.check = true) : p.isNews notify = true := by
  rw [isNews, AList.lookup_eq_none.mpr hnone, hcheck, Bool.and_true]
  exact decide_eq_true hrumor

/-- What `session_send` was called with stays on record. -/
theorem passed_of_sessionSend {w : World} (hw : Inv .free w) (dest : Key) (msg : Payload) :
    .passed dest msg ∈ (sessionSend netSend dest msg w).2.events := by
  have hw' : Inv .free { w with events := w.events ++ [.passed dest msg] } :=
    hw.step (.note (.passed dest msg) rfl trivial nofun)
  have hobeys : Obeys (rules .free False) (sessionSendKind netSend dest packetTypeTraffic msg)
      { w with events := w.events ++ [.passed dest msg] } :=
    sessionSendKind_obeys (sendsFrom_of_allows (netSend_allows False.elim) _ _) False.elim trivial
      trivial
  exact events_subset_of_walk (hobeys.walk hw')
    (List.mem_append.mpr (.inr (List.mem_singleton.mpr rfl)))

/-- A notify that is news passes what an application left in the rumor of its source to
`session_send`, for that source. -/
theorem passed_of_acceptNotify {w : World} (hw : Inv .free w) {notify : PathNotify}
    (hnews : w.router.path.isNews notify = true) {p : Payload}
    (hheld : w.router.path.heldFor notify.source = some (p, true)) :
    .passed notify.source p ∈ (acceptNotify netSend notify w).2.events := by
  rw [acceptNotify, router, Prog.gets_bind, if_pos hnews, now, draw_bind, modifyPath,
    Prog.modify_bind, flush, router, Prog.gets_bind]
  have hheld' : (w.router.path.learn notify (w.env.now w.tick)).heldFor notify.source =
      some (p, true) := hheld
  simp only [hheld', if_true]
  have hw₁ := (hw.step .tick).step
    (.learn (w := { w with tick := w.tick + 1 }) notify (w.env.now w.tick) hnews trivial)
  exact passed_of_sessionSend (Inv.step (w := { w with
    tick := w.tick + 1
    router.path := w.router.path.learn notify (w.env.now w.tick) })
    (.release notify.source p true hheld') hw₁) _ _

/-- A notify that checks, has no next hop and is for this node. -/
structure World.Arrives (w : World) (notify : PathNotify) : Prop where
  arrived : (w.router.tree.greedyNext w.links w.router.pubkey notify.path notify.watermark).1 = none
  mine : notify.dest = w.router.pubkey
  check : notify.check = true

theorem World.Accepts.arrives {w : World} {notify : PathNotify} (h : w.Accepts notify) :
    w.Arrives notify := ⟨h.arrived, h.mine, (Bool.and_eq_true_iff.mp h.news).2⟩

/-- What a rumor holds for a key has been taken out. -/
def World.release (w : World) (k : Key) (p : Payload) (isApp : Bool) : World :=
  { w with
    router.path := w.router.path.takeHeld k
    events := w.events ++ [.released k p isApp] }

/-- **What waits for a key leaves through the layer its rumor's mark names.** -/
theorem flush_of_held {netSend : NetSend} {w : World} {k : Key} {p : Payload} {isApp : Bool}
    (h : w.router.path.heldFor k = some (p, isApp)) :
    flush netSend k w =
      (if isApp then sessionSend netSend k p else netSend k p.bytes) (w.release k p isApp) := by
  rw [flush, router, Prog.gets_bind, h]
  rfl

/-- A notify is taken in. -/
def World.learned (w : World) (notify : PathNotify) : World :=
  { w with
    tick := w.tick + 1
    router.path := w.router.path.learn notify (w.env.now w.tick) }

theorem acceptNotify_of_news {netSend : NetSend} {w : World} {notify : PathNotify}
    (hnews : w.router.path.isNews notify = true) :
    acceptNotify netSend notify w = flush netSend notify.source (w.learned notify) := by
  rw [acceptNotify, router, Prog.gets_bind, if_pos hnews, now, draw_bind, modifyPath,
    Prog.modify_bind]
  rfl

theorem acceptNotify_stale {netSend : NetSend} {w : World} {notify : PathNotify}
    (hnews : w.router.path.isNews notify = false) :
    acceptNotify netSend notify w = (.ok (), w) := by
  rw [acceptNotify, router, Prog.gets_bind, hnews]
  rfl

/-- A frame with such a notify. -/
theorem frame_notify_run {w : World} {notify : PathNotify} {conn : LinkId} (hlive : conn ∈ w.links.ids)
    {bytes : Bytes} (hdecode : PathNotify.decodeExact bytes = .ok notify) (harrives : w.Arrives notify) :
    dispatchFrame conn .pathNotify bytes w =
      (acceptNotify netSend notify >>= fun _ => keepaliveIfIdle conn) w := by
  obtain ⟨peer, hpeer⟩ := Option.isSome_iff_exists.mp (LinkSet.peerOf_isSome.mpr hlive)
  have hnotify : handleNotify netSend notify w = acceptNotify netSend notify w := by
    rw [handleNotify, greedy, Prog.gets_bind]
    have harrived := harrives.arrived
    obtain ⟨⟨next, watermark⟩, hnext⟩ : ∃ hop, w.router.tree.greedyNext w.links w.router.pubkey
      notify.path notify.watermark = hop := ⟨_, rfl⟩
    rw [hnext] at harrived ⊢
    cases harrived
    simp only [router, Prog.gets_bind, harrives.mine, ne_eq, not_true_eq_false, if_false]
  have hframe : handleFrame conn peer bytes .pathNotify w = acceptNotify netSend notify w := by
    rw [← hnotify, handleFrame, hdecode]
    show (if notify.check = true then handleNotify netSend notify else pure () : RouterM Unit) w = _
    rw [if_pos harrives.check]
  rw [dispatchFrame, links, Prog.gets_bind, hpeer]
  show (handleFrame conn peer bytes .pathNotify >>= fun _ => keepaliveIfIdle conn) w = _
  rw [run_bind, hframe, ← run_bind]

/-- The payload is passed on when a frame brings the notify. -/
theorem passed_of_frame {w : World} (hw : Inv .free w) {conn : LinkId} (hlive : conn ∈ w.links.ids)
    {payload : Bytes} {notify : PathNotify} (hdecode : PathNotify.decodeExact payload = .ok notify)
    (haccepts : w.Accepts notify) {p : Payload}
    (hheld : w.router.path.heldFor notify.source = some (p, true)) :
    .passed notify.source p ∈ (w.act (.frame conn .pathNotify payload)).events := by
  have hobeys : Obeys (rules .free False) (acceptNotify netSend notify) w :=
    acceptNotify_obeys (sends_netSend False.elim) False.elim (fun _ => trivial) fun _ _ _ => trivial
  show _ ∈ (dispatchFrame conn .pathNotify payload w).2.events
  rw [frame_notify_run hlive hdecode haccepts.arrives]
  exact mem_events_bind hw hobeys (fun _ => keepaliveIfIdle_allows conn)
    (passed_of_acceptNotify hw haccepts.news hheld)

end Roots

import Roots.Router.Owner
import Roots.Router.Rules.Beside

/-!
# Roots.Router.Broken

A broken-path report is not signed, so anyone can send one. What should undo a false one is the
lookup that `handle_broken` sends after it: the key answers, and its notify brings the path
back. **It does if and only if the notify has another path than the entry** (`notify_mends_iff`).
A node whose coordinates have not changed answers with the path that was marked, and
`handle_notify` takes that for no news, with the mark on the entry and the payload in the rumor.

What a notify that is taken in does to the path table is all done before anything is sent: the
send finds the new path, opens no rumor and looks nothing up. `frame_releases` gives the whole table.
-/

namespace Roots

open Prog RouterM

section

variable [Crypto]

/-! ## Sending along a known path -/

/-- The lookup that went out, if one did. -/
def Event.lookup? : Event → Option (LinkId × Bytes)
  | .wrote id .pathLookup b => some (id, b)
  | _ => none

omit [Crypto] in
theorem Event.lookup_wrote {id : LinkId} {ftype : FrameType} {payload : Bytes}
    (h : ftype ≠ .pathLookup) : (Event.wrote id ftype payload).lookup? = none := by
  cases ftype with
  | pathLookup => exact absurd rfl h
  | _ => rfl

/-- More was recorded, but no lookup that went out. -/
def NoLookups (es es' : List Event) : Prop :=
  ∃ more, es' = es ++ more ∧ ∀ e ∈ more, e.lookup? = none

namespace NoLookups

omit [Crypto]

theorem refl (es : List Event) : NoLookups es es := ⟨[], (List.append_nil es).symm, by simp⟩

theorem note {e : Event} (he : e.lookup? = none) (es : List Event) : NoLookups es (es ++ [e]) :=
  ⟨[e], rfl, by simp [he]⟩

theorem trans {es es' es'' : List Event} (h : NoLookups es es') (h' : NoLookups es' es'') :
    NoLookups es es'' := by
  obtain ⟨more, rfl, hmore⟩ := h
  obtain ⟨more', rfl, hmore'⟩ := h'
  refine ⟨more ++ more', List.append_assoc _ _ _, fun e he => ?_⟩
  exact (List.mem_append.mp he).elim (hmore e) (hmore' e)

theorem isPrefix {es es' : List Event} (h : NoLookups es es') : es <+: es' := by
  obtain ⟨more, rfl, -⟩ := h
  exact List.prefix_append _ _

end NoLookups

/-- Programs that leave the path table alone and only add to what was recorded, and no lookups. -/
def routed (p : PathState) (es : List Event) : Rules World Exit where
  step w w' := w'.router.path = w.router.path ∧ NoLookups w.events w'.events
  inv w := w.router.path = p ∧ NoLookups es w.events
  bad _ _ := False
  keeps h hw := ⟨h.1.trans hw.1, hw.2.trans h.2⟩

variable {p : PathState} {es : List Event}

theorem routed_same {w w' : World} (hpath : w'.router.path = w.router.path)
    (hevents : w'.events = w.events) : (routed p es).step w w' :=
  ⟨hpath, hevents ▸ .refl _⟩

theorem routed_note {w w' : World} {e : Event} (he : e.lookup? = none)
    (hpath : w'.router.path = w.router.path) (hevents : w'.events = w.events ++ [e]) :
    (routed p es).step w w' :=
  ⟨hpath, hevents ▸ .note he _⟩

instance : Beside (routed p es) where
  tick _ _ := routed_same rfl rfl
  wrote _ hne _ _ _ _ := routed_note (Event.lookup_wrote hne) rfl rfl
  stamp _ _ _ := routed_same rfl rfl
  retire _ _ _ _ := routed_same rfl rfl
  not_bad _ _ _ h := h
  steady _ _ _ h := h
  tree _ _ _ := routed_same rfl rfl
  bloom _ _ _ := routed_same rfl rfl
  filter _ _ _ _ := routed_note rfl rfl rfl
  leave _ _ _ := routed_same rfl rfl
  mild _ _ h := h

theorem modifySess_routed (f : SessionState → SessionState) :
    (routed p es).Allows (modifySess f) := .modify fun _ _ => routed_same rfl rfl

theorem record_routed {e : Event} (he : e.lookup? = none) : (routed p es).Allows (record e) :=
  .modify fun _ _ => routed_note he rfl rfl

theorem takeInitSeq_routed : (routed p es).Allows takeInitSeq :=
  .bind (draw_allows _) fun _ => .gets_bind fun _ => .bind (modifySess_routed _) fun _ => .pure _

section Known

variable {dest : Key} (hpath : (p.workingPath dest).isSome)

include hpath

/-- With a path to the destination nothing is looked up. -/
theorem netSend_routed (b : Bytes) : (routed p es).Allows (netSend dest b) := by
  refine fun w => .of_inv fun hw => .gets_bind ?_
  obtain ⟨path, hpath⟩ := Option.isSome_iff_exists.mp hpath
  rw [hw.1, hpath]
  exact routeTraffic_allows dest path b w

theorem sessionSendInner_routed (kind : UInt8) (msg : Payload) :
    (routed p es).Allows (sessionSendInner netSend dest kind msg) := by
  refine .gets_bind fun r => ?_
  split
  · exact .pure _
  · refine .bind (draw_allows _) fun t => .bind (draw_allows _) fun keys => ?_
    refine .bind (record_routed rfl) fun _ => .bind (checked_beside _) fun sealed =>
      .bind (modifySess_routed _) fun _ => result_beside (netSend_routed hpath _) fun sent => ?_
    cases sent with
    | ok => exact record_routed rfl
    | error e => exact .bind (modifySess_routed _) fun _ => exit_beside _

theorem sessionSendKind_routed (kind : UInt8) (msg : Payload) :
    (routed p es).Allows (sessionSendKind netSend dest kind msg) := by
  refine .gets_bind fun r => .ite (sessionSendInner_routed hpath kind msg) ?_
  refine .bind (draw_allows _) fun t => .bind takeInitSeq_routed fun seq => ?_
  refine .bind (draw_allows _) fun send => .bind (draw_allows _) fun next => ?_
  refine .bind (.modify fun _ _ => ⟨rfl, _, rfl, fun e he => ?_⟩) fun _ => ?_
  · obtain ⟨x, -, rfl⟩ := List.mem_map.mp he
    rfl
  refine .bind (modifySess_routed _) fun _ => .bind (encryptInit_beside _ _ _) fun enc => ?_
  exact netSend_routed hpath enc

theorem sessionSend_routed (msg : Payload) : (routed p es).Allows (sessionSend netSend dest msg) :=
  .bind (record_routed rfl) fun _ => sessionSendKind_routed hpath packetTypeTraffic msg

end Known

/-! ## A notify for this node -/

variable {w : World} {notify : PathNotify}

/-- What a notify that is news leaves behind, if a payload waits for it: the path, an empty slot,
and a record of the payload that left it. Nothing is looked up after that. -/
structure Releases (w : World) (notify : PathNotify) (payload : Payload) (isApp : Bool)
    (w' : World) : Prop where
  path : w'.router.path =
    (w.router.path.learn notify (w.env.now w.tick)).takeHeld notify.source
  events : NoLookups (w.events ++ [.released notify.source payload isApp]) w'.events

/-- A program that leaves the path table alone keeps what a notify left behind. -/
theorem Releases.of_routed {payload : Payload} {isApp : Bool} {v : World} {α : Type} {m : RouterM α}
    (h : Releases w notify payload isApp v)
    (hm : ∀ es, (routed ((w.router.path.learn notify (w.env.now w.tick)).takeHeld notify.source)
      es).Allows m) : Releases w notify payload isApp (m v).2 :=
  have hinv := (hm (w.events ++ [.released notify.source payload isApp]) v).inv ⟨h.path, h.events⟩
  ⟨hinv.1, hinv.2⟩

/-- The send of a payload that waited for a notify. -/
theorem handOn_routed {payload : Payload} {isApp : Bool} {es : List Event} :
    (routed ((w.router.path.learn notify (w.env.now w.tick)).takeHeld notify.source) es).Allows
      (if isApp then sessionSend netSend notify.source payload
      else netSend notify.source payload.bytes) := by
  have hknown : (((w.router.path.learn notify (w.env.now w.tick)).takeHeld
      notify.source).workingPath notify.source).isSome :=
    PathState.workingPath_learn w.router.path notify (w.env.now w.tick)
  exact .ite (sessionSend_routed hknown payload) (netSend_routed hknown payload.bytes)

theorem acceptNotify_releases (hnews : w.router.path.isNews notify = true) {payload : Payload}
    {isApp : Bool} (hheld : w.router.path.heldFor notify.source = some (payload, isApp)) :
    Releases w notify payload isApp (acceptNotify netSend notify w).2 := by
  have hheld' : (w.learned notify).router.path.heldFor notify.source = some (payload, isApp) := hheld
  rw [acceptNotify_of_news hnews, flush_of_held hheld']
  exact .of_routed ⟨rfl, .refl _⟩ fun es => handOn_routed

/-! ## A broken path -/

variable {conn : LinkId} {bytes : Bytes} {payload : Payload} {isApp : Bool} {e : PathEntry}

omit [Crypto] in
theorem PathState.heldFor_takeHeld (p : PathState) (k : Key) : (p.takeHeld k).heldFor k = none := by
  cases hheld : (p.takeHeld k).heldFor k with
  | none => rfl
  | some slot =>
    obtain ⟨r, hlookup, hpending, -⟩ := PathState.heldFor_eq_some.mp hheld
    change (p.rumors.modify (xkey k) _).lookup (xkey k) = some r at hlookup
    rw [Assoc.lookup_modify, if_pos rfl] at hlookup
    obtain ⟨r₀, -, rfl⟩ := Option.map_eq_some_iff.mp hlookup
    cases hpending

/-- The path to a key works again, and what waited for it has left its rumor towards the key. -/
structure Mended (k : Key) (payload : Payload) (isApp : Bool) (w w' : World) : Prop where
  entry : ∃ e, w'.router.path.entries.lookup k = some e ∧ e.broken = false
  slot : w'.router.path.heldFor k = none
  sent : w.events ++ [.released k payload isApp] <+: w'.events

theorem Releases.mended {w' : World} (h : Releases w notify payload isApp w') :
    Mended notify.source payload isApp w w' where
  entry := by
    rw [h.path]
    exact ⟨_, AList.lookup_insert _, rfl⟩
  slot := by
    rw [h.path]
    exact PathState.heldFor_takeHeld _ _
  sent := h.events.isPrefix

theorem frame_releases (hlive : conn ∈ w.links.ids)
    (hdecode : PathNotify.decodeExact bytes = .ok notify) (harrives : w.Arrives notify)
    (hnews : w.router.path.isNews notify = true)
    (hheld : w.router.path.heldFor notify.source = some (payload, isApp)) :
    Releases w notify payload isApp (w.act (.frame conn .pathNotify bytes)) := by
  show Releases w notify payload isApp (dispatchFrame conn .pathNotify bytes w).2
  rw [frame_notify_run hlive hdecode harrives]
  refine snd_bind (acceptNotify_releases hnews hheld) fun _ v _ hv => ?_
  exact hv.of_routed fun es => keepaliveIfIdle_allows conn

/-- What the frame does after the notify was taken in: an application's payload goes to
`session_send` and a sealed one to `net_send`. -/
theorem frame_hands_on (hlive : conn ∈ w.links.ids)
    (hdecode : PathNotify.decodeExact bytes = .ok notify) (harrives : w.Arrives notify)
    (hnews : w.router.path.isNews notify = true)
    (hheld : w.router.path.heldFor notify.source = some (payload, isApp)) :
    w.act (.frame conn .pathNotify bytes) =
      (((if isApp then sessionSend netSend notify.source payload
        else netSend notify.source payload.bytes) >>= fun _ => keepaliveIfIdle conn)
        ((w.learned notify).release notify.source payload isApp)).2 := by
  have hheld' : (w.learned notify).router.path.heldFor notify.source = some (payload, isApp) := hheld
  show (dispatchFrame conn .pathNotify bytes w).2 = _
  rw [frame_notify_run hlive hdecode harrives, run_bind, acceptNotify_of_news hnews,
    flush_of_held hheld', ← run_bind]

theorem isNews_of_ne (harrives : w.Arrives notify)
    (he : w.router.path.entries.lookup notify.source = some e) (hseq : e.seq < notify.info.seq)
    (hne : notify.info.path ≠ e.path) : w.router.path.isNews notify = true := by
  rw [PathState.isNews, he, harrives.check, Bool.and_true]
  exact decide_eq_true ⟨hseq, hne⟩

/-- A notify with the path of the entry leaves the path table as it is. -/
theorem path_of_same (hlive : conn ∈ w.links.ids) (hdecode : PathNotify.decodeExact bytes = .ok notify)
    (harrives : w.Arrives notify) (he : w.router.path.entries.lookup notify.source = some e)
    (hsame : notify.info.path = e.path) :
    (w.act (.frame conn .pathNotify bytes)).router.path = w.router.path := by
  have hnews : w.router.path.isNews notify = false := by
    rw [PathState.isNews, he, Bool.and_eq_false_iff]
    exact .inl (decide_eq_false fun h => h.2 hsame)
  show (dispatchFrame conn .pathNotify bytes w).2.router.path = w.router.path
  rw [frame_notify_run hlive hdecode harrives, run_bind_ok (acceptNotify_stale hnews)]
  have hidle : (routed w.router.path w.events).Allows (keepaliveIfIdle conn) :=
    keepaliveIfIdle_allows conn
  exact ((hidle w).inv ⟨rfl, .refl _⟩).1

/-- **In every state, a newer notify mends a broken path if and only if it has another
path.** Then what waited is sent, by the layer its mark names. -/
theorem notify_mends_iff (hlive : conn ∈ w.links.ids)
    (hdecode : PathNotify.decodeExact bytes = .ok notify) (harrives : w.Arrives notify)
    (he : w.router.path.entries.lookup notify.source = some e) (hbroken : e.broken = true)
    (hseq : e.seq < notify.info.seq)
    (hheld : w.router.path.heldFor notify.source = some (payload, isApp)) :
    (Mended notify.source payload isApp w (w.act (.frame conn .pathNotify bytes)) ↔
      notify.info.path ≠ e.path) ∧
    (notify.info.path ≠ e.path → w.act (.frame conn .pathNotify bytes) =
      (((if isApp then sessionSend netSend notify.source payload
        else netSend notify.source payload.bytes) >>= fun _ => keepaliveIfIdle conn)
        ((w.learned notify).release notify.source payload isApp)).2) := by
  refine ⟨⟨fun hmended hsame => ?_, fun hne => ?_⟩, fun hne => ?_⟩
  · obtain ⟨e', he', hmends⟩ := hmended.entry
    rw [path_of_same hlive hdecode harrives he hsame, he] at he'
    cases he'
    cases hbroken.symm.trans hmends
  · have hnews := isNews_of_ne harrives he hseq hne
    exact (frame_releases hlive hdecode harrives hnews hheld).mended
  · exact frame_hands_on hlive hdecode harrives (isNews_of_ne harrives he hseq hne) hheld

end

/-! ## A false report -/

section

attribute [local instance] Sample.lenient

/-- A key with one leading bit. -/
def highKey (n : UInt8) : Key := ⟨n :: List.replicate 31 0, rfl⟩

/-- A notify from `owner` for the node with the high key 0x90. -/
def ownerAt (seq : UInt64) (path : List UInt64) : PathNotify where
  path := []
  watermark := 0
  source := owner
  dest := highKey 0x90
  info := NotifyInfo.signed owner seq path

/-- A report that the path from that node to `owner` is broken. -/
def falseReport : PathBroken where
  path := []
  watermark := 0
  source := highKey 0x90
  dest := owner

/-- The node looks `owner` up and learns its path, is told that it is broken, and then has a
request for it, whose init waits in the rumor. -/
def misled : World :=
  (World.init (highKey 0x90) (.even 1)).run
    [.connect (highKey 0xa0) 0 true, .lookup owner, .frame 0 .pathNotify (ownerAt 1000 [1]).encode,
      .frame 0 .pathBroken falseReport.encode, .request owner [1]]

theorem misled_reachable : misled.Reachable := ⟨_, _, _, rfl⟩

theorem misled_facts : 0 ∈ misled.links.ids ∧ misled.router.pubkey = highKey 0x90 ∧
    (misled.router.tree.greedyNext misled.links misled.router.pubkey [] 0).1 = none ∧
    (misled.router.path.entries.lookup owner).map (fun e => (e.path, e.seq, e.broken)) =
      some ([1], 1000, true) ∧
    (misled.router.path.heldFor owner).isSome = true := by decide +kernel

theorem decode_ownerAt (seq : UInt64) (port : UInt64) (hport : port ≠ 0) :
    PathNotify.decodeExact (ownerAt seq [port]).encode = .ok (ownerAt seq [port]) := by
  refine PathNotify.decodeExact_encode _ .nil ⟨?_, ?_⟩
  · simp [ownerAt, NotifyInfo.signed]
  · simpa [ownerAt, NotifyInfo.signed] using hport

theorem misled_arrives (seq : UInt64) (path : List UInt64) : misled.Arrives (ownerAt seq path) := by
  obtain ⟨-, hself, harrived, -⟩ := misled_facts
  refine ⟨harrived, hself.symm, ?_⟩
  simp only [PathNotify.check, NotifyInfo.check, Bool.and_eq_true]
  exact ⟨(by decide +kernel : Crypto.validKey owner = true), decide_eq_true rfl⟩

/-- The entry of the misled node and what waits for it. -/
theorem misled_holds : ∃ e payload isApp, misled.router.path.entries.lookup owner = some e ∧
    e.path = [1] ∧ e.seq = 1000 ∧ e.broken = true ∧
    misled.router.path.heldFor owner = some (payload, isApp) := by
  obtain ⟨-, -, -, hentry, hheld⟩ := misled_facts
  obtain ⟨e, he, heq⟩ := Option.map_eq_some_iff.mp hentry
  obtain ⟨⟨payload, isApp⟩, hheld⟩ := Option.isSome_iff_exists.mp hheld
  obtain ⟨hpath, hseq, hbroken⟩ := Prod.mk.inj heq |>.imp_right Prod.mk.inj
  exact ⟨e, payload, isApp, he, hpath, hseq, hbroken, hheld⟩

/-- If `owner` has moved, its answer mends the path. -/
theorem notify_mends_moved : ∃ payload isApp,
    Mended owner payload isApp misled
      (misled.act (.frame 0 .pathNotify (ownerAt 2000 [2]).encode)) := by
  obtain ⟨e, payload, isApp, he, hpath, hseq, hbroken, hheld⟩ := misled_holds
  refine ⟨payload, isApp, (notify_mends_iff misled_facts.1
    (decode_ownerAt 2000 2 (by decide)) (misled_arrives 2000 [2]) he hbroken ?_ hheld).1.mpr ?_⟩
  · rw [hseq]
    decide
  · rw [hpath]
    decide

/-- If it has not, the path stays broken and the init stays in the rumor. -/
theorem report_sticks :
    misled.Reachable ∧ 0 ∈ misled.links.ids ∧
      PathNotify.decodeExact (ownerAt 2000 [1]).encode = .ok (ownerAt 2000 [1]) ∧
      misled.Arrives (ownerAt 2000 [1]) ∧
      ∃ e payload isApp, misled.router.path.entries.lookup owner = some e ∧ e.broken = true ∧
        e.seq < (ownerAt 2000 [1]).info.seq ∧
        misled.router.path.heldFor owner = some (payload, isApp) ∧
        ¬ Mended owner payload isApp misled
          (misled.act (.frame 0 .pathNotify (ownerAt 2000 [1]).encode)) := by
  obtain ⟨e, payload, isApp, he, hpath, hseq, hbroken, hheld⟩ := misled_holds
  have hdecode := decode_ownerAt 2000 1 (by decide)
  refine ⟨misled_reachable, misled_facts.1, hdecode, misled_arrives 2000 [1], e, payload, isApp, he,
    hbroken, ?_, hheld, fun hmended => ?_⟩
  · rw [hseq]
    decide
  · have hslot := hmended.slot
    rw [path_of_same misled_facts.1 hdecode (misled_arrives 2000 [1]) he hpath.symm, hheld] at hslot
    cases hslot

end

end Roots

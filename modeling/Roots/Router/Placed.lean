import Roots.Router.Ends
import Roots.Router.Rules.Beside

/-!
# Roots.Router.Placed

Where the payloads of the application are. A payload is accounted for as long as it is in the
outbox, in the resend queue or behind an init, or is known to have been carried by `net_send` or
displaced behind its init. `World.places` counts its copies in all these places, and **the methods
of the router leave the count as it is** (`placing`), whatever else they send on the way. What they
do to the one payload they are given is in `Roots.Router.Outbox`.
-/

namespace Roots

open Prog RouterM

/-- The payloads an event puts away for good. -/
def Event.settled : Event → List (Key × Payload)
  | .carried dest p => [(dest, p)]
  | .displaced dest p => [(dest, p)]
  | _ => []

/-- No rumor holds the payload. -/
def PathState.Free (p : PathState) (msg : Payload) : Prop :=
  ∀ k r, p.rumors.lookup k = some r → r.pending ≠ some msg

namespace PathState

variable {p : PathState} {msg : Payload}

theorem Free.modifyRumor (h : p.Free msg) (x : Key) {f : RumorEntry → RumorEntry}
    (hf : ∀ r, r.pending ≠ some msg → (f r).pending ≠ some msg) : (p.modifyRumor x f).Free msg := by
  intro k r hlookup
  change (p.rumors.modify x f).lookup k = some r at hlookup
  rw [Assoc.lookup_modify] at hlookup
  split at hlookup
  · obtain ⟨r₀, hr₀, rfl⟩ := Option.map_eq_some_iff.mp hlookup
    exact hf r₀ (h k r₀ hr₀)
  · exact h k r hlookup

theorem Free.openRumor (h : p.Free msg) (dest : Key) (t : Instant) : (p.openRumor dest t).Free msg := by
  intro k r hlookup
  change (p.rumors.orInsert (xkey dest) _).lookup k = some r at hlookup
  rw [Assoc.lookup_orInsert] at hlookup
  split at hlookup
  · cases hk : p.rumors.lookup k with
    | none =>
      rw [hk] at hlookup
      cases hlookup
      exact nofun
    | some r₀ =>
      rw [hk] at hlookup
      cases hlookup
      exact h k _ hk
  · exact h k r hlookup

end PathState

section

variable [Crypto]

/-- How many copies of a payload are accounted for. -/
def World.places (w : World) (x : Key × Payload) : Nat :=
  w.outbox.count x + w.router.sess.resend.count x +
    (inHand x.1 (w.router.sess.bufs.lookup x.1)).count x + (w.events.flatMap Event.settled).count x

variable {x : Key × Payload} {w : World}

theorem places_note {e : Event} (h : x ∉ e.settled) :
    World.places { w with events := w.events ++ [e] } x = w.places x := by
  simp [World.places, List.flatMap_append, List.count_eq_zero.mpr h]

theorem places_resend (y : Key × Payload) :
    World.places { w with router.sess.resend := w.router.sess.resend ++ [y] } x =
      w.places x + [y].count x := by
  simp only [World.places, List.count_append]
  omega

theorem places_carried (dest : Key) (msg : Payload) :
    World.places { w with events := w.events ++ [.carried dest msg] } x =
      w.places x + [(dest, msg)].count x := by
  simp only [World.places, List.flatMap_append, List.count_append, Nat.add_assoc]
  rfl

theorem places_lost (items : List (Key × Payload)) :
    World.places { w with events := w.events ++ items.map fun y => .lost y.1 y.2 } x =
      w.places x := by
  have hnone : (items.map fun y => Event.lost y.1 y.2).flatMap Event.settled = [] := by
    rw [List.flatMap_eq_nil_iff]
    intro e he
    obtain ⟨y, -, rfl⟩ := List.mem_map.mp he
    rfl
  simp only [World.places, List.flatMap_append, hnone, List.append_nil]

theorem orLose_err {items : List (Key × Payload)} {m : RouterM Unit} {e : Error} {w' : World}
    (h : m w = (.error (.err e), w')) : orLose items m w =
      (.error (.err e), { w' with events := w'.events ++ items.map fun y => .lost y.1 y.2 }) := by
  rw [orLose, run_bind_ok (result_err h)]
  rfl

/-- Nothing was added to the copies of a payload and none taken away, and no session is gone. -/
structure Placed (x : Key × Payload) (w w' : World) : Prop where
  places : w'.places x = w.places x
  free : w.router.path.Free x.2 → w'.router.path.Free x.2
  sessions : ∀ k ∈ w.router.sess.sessions, k ∈ w'.router.sess.sessions

theorem Placed.refl (x : Key × Payload) (w : World) : Placed x w w := ⟨rfl, id, fun _ h => h⟩

theorem Placed.trans {w' w'' : World} (h : Placed x w w') (h' : Placed x w' w'') :
    Placed x w w'' where
  places := h'.places.trans h.places
  free hfree := h'.free (h.free hfree)
  sessions k hk := h'.sessions k (h.sessions k hk)

theorem placed_note {e : Event} (h : x ∉ e.settled) :
    Placed x w { w with events := w.events ++ [e] } := { Placed.refl x w with places := places_note h }

/-- Programs that leave the copies of a payload where they are, or move them. -/
def placing (x : Key × Payload) : Rules World Exit where
  step := Placed x
  inv w := w.router.path.Free x.2
  bad _ _ := False
  keeps h hw := h.free hw

theorem records_placing (ftype : FrameType) : Records (placing x) ftype :=
  fun _ _ _ _ => placed_note List.not_mem_nil

instance : Beside (placing x) where
  tick w _ := { Placed.refl x w with }
  wrote _ _ := records_placing _
  stamp w _ _ := { Placed.refl x w with }
  retire w _ _ _ := { Placed.refl x w with }
  not_bad _ _ _ h := h
  steady _ _ _ h := h
  tree w _ _ := { Placed.refl x w with }
  bloom w _ _ := { Placed.refl x w with }
  filter := records_placing _
  leave w _ _ := { Placed.refl x w with }
  mild _ _ h := h

theorem Placed.of_obeys {α : Type} {m : RouterM α} (hm : Obeys (placing x) m w)
    (hfree : w.router.path.Free x.2) : Placed x w (m w).2 := by
  have hwalk := hm.walk hfree
  generalize (m w).2 = w' at hwalk
  induction hwalk with
  | refl => exact .refl x w
  | tail _ hstep ih => exact ih.trans hstep

theorem record_placing {e : Event} (h : x ∉ e.settled) : (placing x).Allows (record e) :=
  .modify fun _ _ => placed_note h

theorem modifyPath_placing {f : PathState → PathState} (h : ∀ p, p.Free x.2 → (f p).Free x.2) :
    (placing x).Allows (modifyPath f) :=
  .modify fun w _ => { Placed.refl x w with free := h w.router.path }

/-- Sessions may be made and change, but not what waits. -/
theorem modifySess_placing {f : SessionState → SessionState}
    (hresend : ∀ s, (f s).resend = s.resend) (hbufs : ∀ s, (f s).bufs = s.bufs)
    (hsessions : ∀ s, ∀ k ∈ s.sessions, k ∈ (f s).sessions) : (placing x).Allows (modifySess f) := by
  refine .modify fun w _ => { Placed.refl x w with places := ?_, sessions := hsessions _ }
  show w.outbox.count x + (f w.router.sess).resend.count x +
    (inHand x.1 ((f w.router.sess).bufs.lookup x.1)).count x + _ = _
  rw [hresend, hbufs]
  rfl

theorem insertSession_placing (k : Key) (y : Session × Instant) : (placing x).Allows
    (modifySess fun s => { s with sessions := s.sessions.insert k y }) :=
  modifySess_placing (fun _ => rfl) (fun _ => rfl) fun _ _ h => (AList.mem_insert _).mpr (.inr h)

/-! ## Sending -/

theorem takeInitSeq_placing : (placing x).Allows takeInitSeq :=
  .bind (draw_allows _) fun _ => .gets_bind fun _ =>
    .bind (modifySess_placing (fun _ => rfl) (fun _ => rfl) fun _ _ h => h) fun _ => .pure _

/-- A payload is put behind an init. What is there is displaced. -/
def World.hold (w : World) (dest : Key) (held : HeldBuf) : World :=
  { w with
    router.sess.bufs := w.router.sess.bufs.insert dest held
    events := w.events ++ (inHand dest (w.router.sess.bufs.lookup dest)).map fun y =>
      .displaced y.1 y.2 }

theorem places_hold {dest : Key} {msg : Payload} {held : HeldBuf} {kind : UInt8}
    (hdata : held.data = some (kind, msg)) :
    (w.hold dest held).places x = w.places x + [(dest, msg)].count x := by
  have hevents : ((inHand dest (w.router.sess.bufs.lookup dest)).map fun y =>
      Event.displaced y.1 y.2).flatMap Event.settled = inHand dest (w.router.sess.bufs.lookup dest) := by
    rw [List.flatMap_map]
    exact List.flatMap_singleton' _
  have hnew : inHand dest (some held) = [(dest, msg)] := by
    rw [inHand, Option.bind_some, hdata]
    rfl
  rw [World.places, World.places, World.hold]
  dsimp only
  rw [List.flatMap_append, hevents, List.count_append]
  by_cases hx : x.1 = dest
  · rw [hx, AList.lookup_insert, hnew]
    omega
  · have hother : ∀ h : Option HeldBuf, (inHand dest h).count x = 0 := fun h =>
      List.count_eq_zero.mpr fun hmem => hx (mem_inHand.mp hmem).1
    have hmsg : [(dest, msg)].count x = 0 := by
      rw [← hnew]
      exact hother _
    rw [AList.lookup_insert_ne hx, hother, hmsg]
    omega

/-- With a session a message is sent and then carried or kept, or the session aborts. -/
theorem sessionSendInner_placed (netSend : NetSend) {dest : Key}
    (hsession : dest ∈ w.router.sess.sessions) (kind : UInt8) (msg : Payload) :
    ∃ v, (∀ x, Placed x w v) ∧
      ((∃ b, sessionSendInner netSend dest kind msg w =
          (result (netSend dest b) >>= carryOrKeep dest msg) v) ∨
        sessionSendInner netSend dest kind msg w = (.error .panic, v)) := by
  obtain ⟨⟨s, t⟩, hs⟩ := Assoc.mem_iff_lookup.mp hsession
  have hplaces : ∀ x, (w.sealing dest kind msg).places x = w.places x := fun x =>
    places_note List.not_mem_nil
  rw [sessionSendInner_run netSend hs]
  cases s.encryptChecked (kind :: msg.bytes) (freshBox (w.env.boxKey (w.tick + 1))) with
  | none => exact ⟨_, fun x => ⟨hplaces x, id, fun _ hk => hk⟩, .inr rfl⟩
  | some sealed =>
    refine ⟨{ w.sealing dest kind msg with
      router.sess.sessions := w.router.sess.sessions.insert dest (sealed.1, w.env.now w.tick) },
      fun x => ⟨hplaces x, id, fun k hk => ?_⟩, .inl ⟨sealed.2, rfl⟩⟩
    exact (AList.mem_insert _).mpr (.inr hk)

/-- Without a session the payload is put behind an init, and the init goes out. -/
theorem sessionSendKind_run (netSend : NetSend) {dest : Key}
    (hnone : dest ∉ w.router.sess.sessions) (kind : UInt8) (msg : Payload) :
    ∃ init v, (∀ x, World.places v x = w.places x + [(dest, msg)].count x) ∧
      v.router.path = w.router.path ∧ v.router.sess.sessions = w.router.sess.sessions ∧
      sessionSendKind netSend dest kind msg w =
        (encryptInit init sessionTypeInit dest >>= netSend dest) v := by
  obtain ⟨seq, hseq⟩ : ∃ seq,
      seq = nextInitSeq (w.env.unixNow (w.tick + 1)) w.router.sess.initSeq := ⟨_, rfl⟩
  obtain ⟨v, hv⟩ : ∃ v : World, v = { w with
      tick := w.tick + 4
      router.sess.initSeq := seq } := ⟨_, rfl⟩
  obtain ⟨held, hheld⟩ : ∃ held, held = holdBehindInit (w.router.sess.bufs.lookup dest) seq
      (freshBox (w.env.boxKey (w.tick + 2))) (freshBox (w.env.boxKey (w.tick + 3))) kind msg
      (w.env.now w.tick) := ⟨_, rfl⟩
  have hdata : held.data = some (kind, msg) := by
    rw [hheld]
    rfl
  refine ⟨held.buf.init, v.hold dest held, fun x => ?_, ?_, ?_, ?_⟩
  · exact (places_hold hdata).trans (by rw [hv]; rfl)
  · rw [hv]
    rfl
  · rw [hv]
    rfl
  · rw [sessionSendKind, router, Prog.gets_bind, if_neg hnone, hv, hheld, hseq]
    rfl

section Send

variable {netSend : NetSend} (hsend : ∀ dest b, (placing x).Allows (netSend dest b))

include hsend

theorem sessionSendInner_placing {dest : Key} {msg : Payload} (hne : (dest, msg) ≠ x) (kind : UInt8) :
    (placing x).Allows (sessionSendInner netSend dest kind msg) := by
  intro w
  by_cases hsession : dest ∈ w.router.sess.sessions
  · obtain ⟨v, hplaced, ⟨b, hrun⟩ | hrun⟩ := sessionSendInner_placed netSend hsession kind msg
    rotate_left
    · have hexit : Obeys (placing x) (exit .panic : RouterM Unit) v := exit_beside _ v
      exact .of_run (fun _ => hplaced x) hrun hexit
    refine .of_run (fun _ => hplaced x) hrun ?_
    refine result_beside (hsend _ _) (fun sent => ?_) v
    cases sent with
    | ok => exact record_placing fun hmem => hne (List.mem_singleton.mp hmem).symm
    | error e =>
      refine .bind (.modify fun w _ => { Placed.refl x w with places := ?_ }) fun _ => exit_beside _
      exact (places_resend _).trans (by simp [hne])
  · rw [sessionSendInner]
    refine .gets_bind ?_
    rw [AList.lookup_eq_none.mpr hsession]
    exact .pure _

theorem sessionSendKind_placing {dest : Key} {msg : Payload} (hne : (dest, msg) ≠ x) (kind : UInt8) :
    (placing x).Allows (sessionSendKind netSend dest kind msg) := by
  intro w
  by_cases hsession : dest ∈ w.router.sess.sessions
  · refine .gets_bind ?_
    rw [if_pos hsession]
    exact sessionSendInner_placing hsend hne kind w
  · obtain ⟨init, v, hplaces, hpath, hsessions, hrun⟩ := sessionSendKind_run netSend hsession kind msg
    refine .of_run (fun _ => ⟨?_, hpath ▸ id, fun k hk => hsessions ▸ hk⟩) hrun ?_
    · rw [hplaces]
      simp [hne]
    · exact .bind (encryptInit_beside _ _ _ v) fun enc v' _ => hsend dest enc v'

theorem sessionSend_placing {dest : Key} {msg : Payload} (hne : (dest, msg) ≠ x) :
    (placing x).Allows (sessionSend netSend dest msg) :=
  .bind (record_placing List.not_mem_nil) fun _ => sessionSendKind_placing hsend hne _

/-! ## Paths -/

/-- No rumor holds the payload, so none hands it on. -/
theorem flush_placing (source : Key) : (placing x).Allows (flush netSend source) := by
  refine fun w => .of_inv fun hw => .gets_bind ?_
  split
  · exact .pure _
  · rename_i payload isApp hheld
    obtain ⟨r, hr, hpending, -⟩ := PathState.heldFor_eq_some.mp hheld
    have hne : (source, payload) ≠ x := fun heq => hw _ r hr (by rw [hpending, ← heq])
    refine .modify_bind (fun _ => ⟨?_, fun hfree => ?_, fun _ hk => hk⟩)
      (.ite (fun _ => sessionSend_placing hsend hne _) fun _ => hsend _ _ _)
    · exact places_note (w := { w with router.path := w.router.path.takeHeld source })
        List.not_mem_nil
    · exact hfree.modifyRumor _ fun _ _ => nofun

theorem acceptNotify_placing (notify : PathNotify) :
    (placing x).Allows (acceptNotify netSend notify) :=
  .gets_bind fun _ => .ite (.bind (draw_allows _) fun _ =>
    .bind (modifyPath_placing fun _ h => h) fun _ => flush_placing hsend _) (.pure _)

theorem handleNotify_placing (notify : PathNotify) :
    (placing x).Allows (handleNotify netSend notify) :=
  handleNotify_allows (acceptNotify_placing hsend _)

theorem handleLookup_placing (src : Key) (lookup : PathLookup) :
    (placing x).Allows (handleLookup netSend src lookup) :=
  .bind (multicast_beside (records_placing _) _ _ _) fun _ => .gets_bind fun _ => .ite (.pure _)
    (.bind (draw_allows _) fun _ => .bind (modifyPath_placing fun _ h => h) fun _ =>
      handleNotify_placing hsend _)

theorem rumorLookup_placing (dest : Key) : (placing x).Allows (rumorLookup netSend dest) := by
  refine .bind (draw_allows _) fun t => .gets_bind fun _ => .ite (.pure _) ?_
  refine .bind (modifyPath_placing fun p hfree => ?_) fun _ =>
    .gets_bind fun _ => handleLookup_placing hsend _ _
  exact (hfree.openRumor dest t).modifyRumor _ fun _ h => h

theorem markBroken_placing (dest : Key) : (placing x).Allows (markBroken netSend dest) :=
  .gets_bind fun _ => .ite (.bind (modifyPath_placing fun _ h => h) fun _ =>
    rumorLookup_placing hsend _) (.pure _)

theorem handleBroken_placing (broken : PathBroken) :
    (placing x).Allows (handleBroken netSend broken) :=
  handleReport_allows (markBroken_placing hsend _)

section Tagged

variable (hx : ∃ id, x.2.tag = .traffic id)

include hx

/-- A sealed message is another payload. -/
theorem pathfinderSend_placing (dest : Key) (payload : Bytes) :
    (placing x).Allows (pathfinderSend netSend dest payload) := by
  refine .gets_bind fun r => ?_
  split
  · exact routeTraffic_allows _ _ _
  · refine .bind (rumorLookup_placing hsend _) fun _ =>
      .modify fun w _ => ⟨?_, fun hfree => ?_, fun _ hk => hk⟩
    · exact places_note (w := { w with router.path := w.router.path.modifyRumor (xkey dest) fun e =>
        { e with pending := some ⟨payload, .sealed⟩ } }) List.not_mem_nil
    · refine hfree.modifyRumor _ fun _ _ heq => ?_
      obtain ⟨id, hid⟩ := hx
      rw [← Option.some.inj heq] at hid
      cases hid

/-! ## What comes in -/

theorem protoSend_placing (dest : Key) (payload : Bytes) :
    (placing x).Allows (protoSend netSend dest payload) := by
  refine sessionSendKind_placing hsend (fun heq => ?_) _
  obtain ⟨id, hid⟩ := hx
  rw [← heq] at hid
  cases hid

omit hsend hx in
theorem pushProto_placing (src : Key) (payload : Bytes) :
    (placing x).Allows (pushProto src payload) := .modify fun w _ => { Placed.refl x w with }

theorem handleProtoBytes_placing (src : Key) (payload : Bytes) :
    (placing x).Allows (handleProtoBytes netSend src payload) := by
  have hproto := protoSend_placing hsend hx src
  refine .gets_bind fun r => ?_
  split
  · exact .pure _
  · refine .ite (hproto _) (.ite (pushProto_placing _ _) (.ite (.gets_bind fun r' => ?_) (.pure _)))
    split
    · exact .pure _
    · exact .ite (hproto _) (.ite (hproto _) (.ite (hproto _) (.ite (pushProto_placing _ _) (.pure _))))

theorem deliver_placing (src : Key) (payload : Bytes) :
    (placing x).Allows (deliver netSend src payload) := by
  cases payload with
  | nil => exact .pure _
  | cons kind payload =>
    refine .ite (.modify fun w _ => ⟨?_, id, fun _ hk => hk⟩)
      (.ite (handleProtoBytes_placing hsend hx _ _) (.pure _))
    exact places_note (w := { w with router.inbox := w.router.inbox ++ [(src, payload)] })
      List.not_mem_nil

omit hx in
theorem sendAck_placing (dest : Key) (ack : Option SessionInit) :
    (placing x).Allows (sendAck netSend dest ack) := by
  cases ack with
  | none => exact .pure _
  | some ack => exact .bind (encryptInit_beside _ _ _) fun enc => hsend dest enc

theorem onTraffic_placing (src : Key) (data : Bytes) (t : Instant) :
    (placing x).Allows (onTraffic netSend src data t) := by
  have hinit : ∀ init, (placing x).Allows (do
      let enc ← encryptInit init sessionTypeInit src
      netSend src enc : RouterM Unit) := fun init =>
    .bind (encryptInit_beside _ _ _) fun enc => hsend src enc
  refine .bind takeInitSeq_placing fun seq => .gets_bind fun r => ?_
  split
  · refine .bind (draw_allows _) fun keys => .bind (draw_allows _) fun t' => ?_
    refine .bind (checked_beside _) fun opened => ?_
    split
    · exact .bind (insertSession_placing _ _) fun _ => deliver_placing hsend hx _ _
    · exact hinit _
  · refine .bind (draw_allows _) fun _ => .bind (draw_allows _) fun _ => ?_
    exact .bind takeInitSeq_placing fun _ => hinit _

end Tagged

end Send

variable (hx : ∃ id, x.2.tag = .traffic id)

include hx

theorem netSend_placing (dest : Key) (b : Bytes) : (placing x).Allows (netSend dest b) := by
  have hdepth : ∀ depth dest b, (placing x).Allows (netSendDepth depth dest b) := by
    intro depth
    induction depth with
    | zero => exact fun _ _ => exit_beside _
    | succ depth ih => exact fun dest b => pathfinderSend_placing ih hx dest b
  exact hdepth 2 dest b

/-- Frames other than traffic. -/
theorem handleFrame_placing (conn : LinkId) (peer : Key) (payload : Bytes) {ftype : FrameType}
    (hne : ftype ≠ .traffic) : (placing x).Allows (handleFrame conn peer payload ftype) := by
  have hsend := netSend_placing hx
  exact handleFrame_beside _ _ _ (handleLookup_placing hsend _) (handleNotify_placing hsend)
    (handleBroken_placing hsend) fun h => absurd h hne

end

end Roots

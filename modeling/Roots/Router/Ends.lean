import Roots.Router.Rules.Net

/-!
# Roots.Router.Ends

There are two models of the session layer: the router's methods, which keep the sessions with
all peers and hand bytes to `net_send`, and the `Endpoint`, one end of one session, on which the
results about session traffic are proved. **What the router keeps for a peer behaves as an
endpoint** (`handleSessionBytes_refines`, `sessionSendKind_refines`): it goes through the states
of `Endpoint.receive` and `Endpoint.sendKind` and sends the bytes of the same messages. The sums of
an endpoint wrap and those of the router panic, so there has to be room for them.

The methods take `net_send` as an argument. Here it is one that queues what it is given
(`queueing`), so that what was sent can be read off the state.
-/

namespace Roots

open Prog RouterM

variable [Crypto]

/-- A `net_send` that puts what it is given on the outbox. -/
def queueing : NetSend := fun dest b =>
  modify fun w => { w with outbox := w.outbox ++ [(dest, ⟨b, .sealed⟩)] }

/-- What the router keeps for a peer is the state of an endpoint. -/
structure World.Ends (w : World) (peer : Key) (e : Endpoint) : Prop where
  session : (w.router.sess.sessions.lookup peer).map Prod.fst = e.session
  buf : (w.router.sess.bufs.lookup peer).map HeldBuf.buf = e.buf
  initSeq : w.router.sess.initSeq = e.initSeq
  inbox : (w.router.inbox.filter fun x => x.1 = peer).map Prod.snd = e.inbox

/-- The endpoint that the router keeps for a peer, with no record of what it sealed. -/
def World.endOf (w : World) (peer : Key) : Endpoint where
  session := (w.router.sess.sessions.lookup peer).map Prod.fst
  buf := (w.router.sess.bufs.lookup peer).map HeldBuf.buf
  initSeq := w.router.sess.initSeq
  inbox := (w.router.inbox.filter fun x => x.1 = peer).map Prod.snd
  sealed := []

theorem World.ends_endOf (w : World) (peer : Key) : w.Ends peer (w.endOf peer) :=
  ⟨rfl, rfl, rfl, rfl⟩

/-- The bytes of a message from the node with a key to a peer. -/
inductive Spells (key peer : Key) : SessionMsg → Key × Payload → Prop
  | init {isAck : Bool} {init : SessionInit} {eph : Key} {b : Bytes}
      (h : init.encryptMsg (if isAck then sessionTypeAck else sessionTypeInit) key peer eph =
        some b) : Spells key peer (.init isAck init) (peer, ⟨b, .sealed⟩)
  | traffic {ct : Bytes} : Spells key peer (.traffic ct) (peer, ⟨ct, .sealed⟩)

/-- The state afterwards is that of an endpoint, and its messages were sent. -/
structure Refines (peer : Key) (out : Endpoint × List SessionMsg) (w w' : World) : Prop where
  ends : w'.Ends peer out.1
  sent : ∃ items, w'.outbox = w.outbox ++ items ∧
    List.Forall₂ (Spells w.router.key peer) out.2 items
  key : w'.router.key = w.router.key

variable {w : World} {peer : Key} {e : Endpoint}

/-- Two parts of a call, one after the other. -/
theorem Refines.append {e₁ e₂ : Endpoint} {msgs₁ msgs₂ : List SessionMsg} {w₁ w₂ : World}
    (h₁ : Refines peer (e₁, msgs₁) w w₁) (h₂ : Refines peer (e₂, msgs₂) w₁ w₂) :
    Refines peer (e₂, msgs₁ ++ msgs₂) w w₂ := by
  obtain ⟨items₁, hout₁, hspells₁⟩ := h₁.sent
  obtain ⟨items₂, hout₂, hspells₂⟩ := h₂.sent
  rw [h₁.key] at hspells₂
  refine ⟨h₂.ends, ⟨items₁ ++ items₂, ?_, List.rel_append hspells₁ hspells₂⟩, h₂.key.trans h₁.key⟩
  rw [hout₂, hout₁, List.append_assoc]

/-- What a call draws when it reads the surroundings at these places from the start of it. -/
def World.drawn (w : World) (first second third fourth fifth clock mono : Nat) : Draw where
  first := freshBox (w.env.boxKey (w.tick + first))
  second := freshBox (w.env.boxKey (w.tick + second))
  third := freshBox (w.env.boxKey (w.tick + third))
  fourth := freshBox (w.env.boxKey (w.tick + fourth))
  fifth := freshBox (w.env.boxKey (w.tick + fifth))
  unixNow := w.env.unixNow (w.tick + clock)
  now := w.env.now (w.tick + mono)

/-- The local key sequence of the session is `n` steps away from its end. -/
def Endpoint.Roomy (e : Endpoint) (n : Nat) : Prop :=
  ∀ s, e.session = some s → s.localKeySeq.toNat + n < 2 ^ 64

/-! ## Sending -/

/-- An init or ack goes out, and nothing else changes. -/
theorem encryptInit_queueing (hpoint : (edToCurvePub peer).isSome) (isAck : Bool)
    (init : SessionInit) (w : World) :
    ∃ b, Spells w.router.key peer (.init isAck init) (peer, ⟨b, .sealed⟩) ∧
      (encryptInit init (if isAck then sessionTypeAck else sessionTypeInit) peer >>=
          queueing peer) w =
        (.ok (), { w with
          tick := w.tick + 1
          outbox := w.outbox ++ [(peer, ⟨b, .sealed⟩)] }) := by
  obtain ⟨b, hb⟩ : ∃ b, init.encryptMsg (if isAck then sessionTypeAck else sessionTypeInit)
      w.router.key peer (w.env.boxKey w.tick) = some b := by
    rwa [← Option.isSome_iff_exists, SessionInit.encryptMsg_isSome]
  refine ⟨b, .init hb, ?_⟩
  rw [run_bind, encryptInit_run, hb]
  rfl

/-- The end of `session_send_inner`. -/
def carryOrKeep (dest : Key) (msg : Payload) : Except Exit Unit → RouterM Unit
  | .ok _ => record (.carried dest msg)
  | .error e => do
      modifySess fun ss => { ss with resend := ss.resend ++ [(dest, msg)] }
      exit e

/-- A session is asked to seal a payload: the keys are drawn. -/
def World.sealing (w : World) (dest : Key) (kind : UInt8) (msg : Payload) : World :=
  { w with tick := w.tick + 2, events := w.events ++ [.sealed dest (kind :: msg.bytes) msg] }

/-- With a session, `session_send_inner` seals **the packet type in front of the bytes**, and
`net_send` gets the message that is made of them. -/
theorem sessionSendInner_run (netSend : NetSend) {dest : Key} {s : Session} {t : Instant}
    (hs : w.router.sess.sessions.lookup dest = some (s, t)) (kind : UInt8) (msg : Payload) :
    sessionSendInner netSend dest kind msg w =
      match s.encryptChecked (kind :: msg.bytes) (freshBox (w.env.boxKey (w.tick + 1))) with
      | some sealed => (result (netSend dest sealed.2) >>= carryOrKeep dest msg)
          { w.sealing dest kind msg with
            router.sess.sessions := w.router.sess.sessions.insert dest (sealed.1, w.env.now w.tick) }
      | none => (.error .panic, w.sealing dest kind msg) := by
  rw [sessionSendInner, router, Prog.gets_bind, hs]
  simp only [now, fresh, draw_bind, record, Prog.modify_bind]
  cases s.encryptChecked (kind :: msg.bytes) (freshBox (w.env.boxKey (w.tick + 1))) with
  | none => rfl
  | some sealed => rfl

/-- A traffic message goes out under the session that is there. -/
theorem sessionSendInner_refines (hends : w.Ends peer e) {s : Session} (hs : e.session = some s)
    (hroom : s.localKeySeq + 1 ≠ 0) (kind : UInt8) (msg : Payload) :
    ∃ w', sessionSendInner queueing peer kind msg w = (.ok (), w') ∧
      Refines peer (e.sendInner s kind msg.bytes (freshBox (w.env.boxKey (w.tick + 1)))) w w' := by
  obtain ⟨⟨s', t⟩, hlookup, hfst⟩ := Option.map_eq_some_iff.mp (hends.session.trans hs)
  cases hfst
  rw [sessionSendInner_run queueing hlookup, Session.encryptChecked_of_ne hroom]
  refine ⟨_, rfl, ⟨?_, hends.buf, hends.initSeq, hends.inbox⟩, ⟨_, rfl, ?_⟩, rfl⟩
  · show ((w.router.sess.sessions.insert peer _).lookup peer).map Prod.fst = _
    rw [AList.lookup_insert]
    rfl
  · exact .cons .traffic .nil

/-- **`session_send_kind` sends as an endpoint does.** -/
theorem sessionSendKind_refines (hpoint : (edToCurvePub peer).isSome) (hends : w.Ends peer e)
    (hroom : e.Roomy 1) (kind : UInt8) (msg : Payload) :
    ∃ d w', sessionSendKind queueing peer kind msg w = (.ok (), w') ∧
      Refines peer (e.sendKind kind msg.bytes d) w w' := by
  rw [sessionSendKind, router, Prog.gets_bind]
  cases hs : e.session with
  | some s =>
    have hmem : peer ∈ w.router.sess.sessions := by
      obtain ⟨x, hx, -⟩ := Option.map_eq_some_iff.mp (hends.session.trans hs)
      exact Assoc.mem_iff_lookup.mpr ⟨x, hx⟩
    rw [if_pos hmem]
    obtain ⟨w', hrun, hrefines⟩ := sessionSendInner_refines hends hs (succ_ne_zero (hroom s hs))
      kind msg
    refine ⟨w.drawn 1 0 0 0 0 0 0, w', hrun, ?_⟩
    rw [Endpoint.sendKind, hs]
    exact hrefines
  | none =>
    have hmem : peer ∉ w.router.sess.sessions := by
      have hnone := hends.session.trans hs
      rwa [Option.map_eq_none_iff, AList.lookup_eq_none] at hnone
    rw [if_neg hmem]
    -- The buffer is the one that was there or a new one, and its init goes out.
    obtain ⟨d, hd⟩ : ∃ d, d = w.drawn 2 3 0 0 0 1 0 := ⟨_, rfl⟩
    obtain ⟨held, hheld⟩ : ∃ held, held = holdBehindInit (w.router.sess.bufs.lookup peer)
        (nextInitSeq d.unixNow w.router.sess.initSeq) d.first d.second kind msg (w.env.now w.tick) :=
      ⟨_, rfl⟩
    obtain ⟨v, hv⟩ : ∃ v : World, v = { w with
        tick := w.tick + 4
        router.sess.initSeq := nextInitSeq d.unixNow w.router.sess.initSeq
        router.sess.bufs := w.router.sess.bufs.insert peer held
        events := w.events ++ (inHand peer (w.router.sess.bufs.lookup peer)).map fun x =>
          .displaced x.1 x.2 } := ⟨_, rfl⟩
    obtain ⟨b, hspells, hrun⟩ := encryptInit_queueing hpoint false held.buf.init v
    subst hv hheld hd
    refine ⟨w.drawn 2 3 0 0 0 1 0, _, hrun, ?_⟩
    rw [Endpoint.sendKind, hs, ← hends.buf, ← hends.initSeq]
    have hbufs : ∀ x, ((w.router.sess.bufs.insert peer x).lookup peer).map HeldBuf.buf =
        some x.buf := fun x => by
      rw [AList.lookup_insert]
      rfl
    exact ⟨⟨hends.session.trans hs, hbufs _, rfl, hends.inbox⟩, ⟨_, rfl, .cons hspells .nil⟩, rfl⟩

/-! ## Receiving -/

/-- The session that is opened for a message takes it in. The buffer is gone then. -/
def RouterM.openFor (src : Key) (init : SessionInit) (t : Instant) : RouterM (Option SessionInit) := do
  let r ← router
  let recv ← fresh
  let send ← fresh
  let next ← fresh
  let s := Session.opening init (r.sess.bufs.lookup src) recv send next
  modifySess fun ss =>
    { ss with bufs := ss.bufs.erase src, sessions := ss.sessions.insert src (s, t) }
  let ackSeq ← takeInitSeq
  let keys ← fresh
  let handled := s.handleInit init ackSeq keys
  modifySess fun ss => { ss with sessions := ss.sessions.insert src (handled.1, t) }
  return handled.2

theorem Session.localKeySeq_opening (init : SessionInit) (held : Option HeldBuf)
    (recv send next : BoxKeys) : (Session.opening init held recv send next).localKeySeq = 0 := by
  cases held <;> rfl

/-- The sum of a session that is new fits. -/
theorem openSession_openFor (netSend : NetSend) (src : Key) (init : SessionInit) (t : Instant)
    (w : World) :
    openSession netSend src init t w = (openFor src init t >>= fun ack =>
      ackAndFlush netSend src ack (w.router.sess.bufs.lookup src)) w := by
  have hfits : ∀ held recv send next seq keys,
      (Session.opening init held recv send next).handleInitChecked init seq keys =
        some ((Session.opening init held recv send next).handleInit init seq keys) := by
    intro held recv send next seq keys
    refine Session.handleInitChecked_of_ne ?_ init seq keys
    rw [Session.localKeySeq_opening]
    decide
  simp only [openSession, hfits]
  rfl

section Receive

variable (hpoint : (edToCurvePub peer).isSome) (hends : w.Ends peer e)

include hpoint hends

theorem sendAck_queueing (ack : Option SessionInit) :
    ∃ w', sendAck queueing peer ack w = (.ok (), w') ∧
      Refines peer (e, (ack.map (SessionMsg.init true)).toList) w w' := by
  cases ack with
  | none => exact ⟨w, rfl, hends, ⟨[], (List.append_nil _).symm, .nil⟩, rfl⟩
  | some ack =>
    obtain ⟨b, hspells, hrun⟩ := encryptInit_queueing hpoint true ack w
    exact ⟨_, hrun, ⟨hends.session, hends.buf, hends.initSeq, hends.inbox⟩,
      ⟨_, rfl, .cons hspells .nil⟩, rfl⟩

/-- The ack and the payload that waited go out when a session is open. -/
theorem ackAndFlush_refines {s : Session} (hs : e.session = some s) (hroom : s.localKeySeq + 1 ≠ 0)
    (ack : Option SessionInit) (held : Option HeldBuf) :
    ∃ keys w', ackAndFlush queueing peer ack held w = (.ok (), w') ∧
      Refines peer (e.ackAndFlush s ack (held.map HeldBuf.buf) keys) w w' := by
  obtain ⟨w₁, hack, hrefines⟩ := sendAck_queueing hpoint hends ack
  rw [ackAndFlush, run_bind_ok (orLose_ok hack)]
  cases held with
  | none => exact ⟨freshBox w.router.key, w₁, rfl, hrefines⟩
  | some held =>
    cases hdata : held.buf.data with
    | none =>
      refine ⟨freshBox w.router.key, w₁, ?_, ?_⟩
      · simp [HeldBuf.data, hdata]
      · simpa [Endpoint.ackAndFlush, hdata] using hrefines
    | some data =>
      obtain ⟨kind, bytes⟩ := data
      obtain ⟨w₂, hsend, hrefines₂⟩ := sessionSendInner_refines hrefines.ends hs hroom kind
        ⟨bytes, held.tag⟩
      refine ⟨freshBox (w₁.env.boxKey (w₁.tick + 1)), w₂, ?_, ?_⟩
      · simpa [HeldBuf.data, hdata] using hsend
      · simp only [Endpoint.ackAndFlush, Option.map_some, Option.bind_some, hdata]
        exact hrefines.append hrefines₂

/-- The session that is opened for an init or an ack. -/
theorem openSession_refines (init : SessionInit) (t : Instant) :
    ∃ d w', openSession queueing peer init t w = (.ok (), w') ∧
      Refines peer (e.openSession init d) w w' := by
  obtain ⟨d, hd⟩ : ∃ d, d = w.drawn 0 1 2 4 0 3 0 := ⟨_, rfl⟩
  obtain ⟨held, hheld⟩ : ∃ held, held = w.router.sess.bufs.lookup peer := ⟨_, rfl⟩
  obtain ⟨s, hs⟩ : ∃ s, s = Session.opening init held d.first d.second d.third := ⟨_, rfl⟩
  obtain ⟨seq, hseq⟩ : ∃ seq, seq = nextInitSeq d.unixNow w.router.sess.initSeq := ⟨_, rfl⟩
  obtain ⟨v, hv⟩ : ∃ v : World, v = { w with
      tick := w.tick + 5
      router.sess.initSeq := seq
      router.sess.bufs := w.router.sess.bufs.erase peer
      router.sess.sessions := (w.router.sess.sessions.insert peer (s, t)).insert peer
        ((s.handleInit init seq d.fourth).1, t) } := ⟨_, rfl⟩
  have hopen : v.Ends peer
      { e with session := some (s.handleInit init seq d.fourth).1, buf := none, initSeq := seq } := by
    subst hv
    refine ⟨?_, ?_, rfl, hends.inbox⟩
    · show (((w.router.sess.sessions.insert peer _).insert peer _).lookup peer).map Prod.fst = _
      rw [AList.lookup_insert]
      rfl
    · show ((w.router.sess.bufs.erase peer).lookup peer).map HeldBuf.buf = none
      rw [AList.lookup_erase]
      rfl
  have hcount : (s.handleInit init seq d.fourth).1.localKeySeq.toNat ≤ 1 := by
    have hle := s.toNat_localKeySeq_handleInit_le d.fourth init seq
    rwa [hs, Session.localKeySeq_opening, ← hs] at hle
  obtain ⟨keys, w', hrun, hrefines⟩ := ackAndFlush_refines hpoint hopen rfl
    (succ_ne_zero (by omega)) (s.handleInit init seq d.fourth).2 held
  refine ⟨{ d with fifth := keys }, w', ?_, ?_⟩
  · subst hv hseq hs hheld hd
    rw [openSession_openFor]
    exact hrun
  · have hbuf : e.buf = held.map HeldBuf.buf := by rw [hheld, hends.buf]
    rw [Endpoint.openSession, hbuf]
    subst hv hseq hs
    rw [← hends.initSeq]
    cases held <;> exact ⟨hrefines.ends, hrefines.sent, hrefines.key⟩

/-- The init and ack arm. -/
theorem onInit_refines (hroom : e.Roomy 1) (isAck : Bool) (init : SessionInit) (t : Instant) :
    ∃ d w', onInit queueing peer isAck init t w = (.ok (), w') ∧
      Refines peer (e.onInit isAck init d) w w' := by
  rw [onInit, router, Prog.gets_bind]
  cases hlookup : w.router.sess.sessions.lookup peer with
  | none =>
    have hnone : e.session = none := by rw [← hends.session, hlookup]; rfl
    obtain ⟨d, w', hrun, hrefines⟩ := openSession_refines hpoint hends init t
    refine ⟨d, w', hrun, ?_⟩
    rw [Endpoint.onInit, hnone]
    exact hrefines
  | some x =>
    obtain ⟨s, t₀⟩ := x
    have hsome : e.session = some s := by rw [← hends.session, hlookup]; rfl
    have hinsert : ∀ s' : Session, ((w.router.sess.sessions.insert peer (s', t)).lookup peer).map
        Prod.fst = some s' := fun s' => by rw [AList.lookup_insert]; rfl
    have hfits : s.localKeySeq + 1 ≠ 0 := succ_ne_zero (hroom s hsome)
    simp only [Session.handleAckChecked_of_ne hfits, Session.handleInitChecked_of_ne hfits]
    cases isAck with
    | true =>
      refine ⟨w.drawn 0 0 0 0 0 0 0, _, rfl, ?_⟩
      rw [Endpoint.onInit, hsome]
      exact ⟨⟨hinsert _, hends.buf, hends.initSeq, hends.inbox⟩,
        ⟨[], (List.append_nil _).symm, .nil⟩, rfl⟩
    | false =>
      obtain ⟨d, hd⟩ : ∃ d, d = w.drawn 1 0 0 0 0 0 0 := ⟨_, rfl⟩
      obtain ⟨seq, hseq⟩ : ∃ seq, seq = nextInitSeq d.unixNow w.router.sess.initSeq := ⟨_, rfl⟩
      obtain ⟨v, hv⟩ : ∃ v : World, v = { w with
          tick := w.tick + 2
          router.sess.initSeq := seq
          router.sess.sessions := w.router.sess.sessions.insert peer
            ((s.handleInit init seq d.first).1, t) } := ⟨_, rfl⟩
      have hmoved : v.Ends peer
          { e with session := some (s.handleInit init seq d.first).1, initSeq := seq } := by
        subst hv
        exact ⟨hinsert _, hends.buf, rfl, hends.inbox⟩
      obtain ⟨w', hrun, hrefines⟩ := sendAck_queueing hpoint hmoved (s.handleInit init seq d.first).2
      refine ⟨d, w', ?_, ?_⟩
      · subst hv hseq hd
        exact hrun
      · rw [Endpoint.onInit, hsome, ← hends.initSeq, ← hseq]
        subst hv
        exact ⟨hrefines.ends, hrefines.sent, hrefines.key⟩

/-- A payload of the protocol inside a session is stored, answered with one message or
ignored. -/
theorem handleProtoBytes_refines (hroom : e.Roomy 1) (payload : Bytes) :
    ∃ w', handleProtoBytes queueing peer payload w = (.ok (), w') ∧
      (Refines peer (e, []) w w' ∨
        ∃ b d, Refines peer (e.sendKind packetTypeProto b d) w w') := by
  have hsame : ∀ v : World, v.Ends peer e → v.outbox = w.outbox → v.router.key = w.router.key →
      Refines peer (e, []) w v := fun v hv hout hkey =>
    ⟨hv, ⟨[], hout.trans (List.append_nil _).symm, .nil⟩, hkey⟩
  have hignored : ∃ w', (pure () : RouterM Unit) w = (.ok (), w') ∧
      (Refines peer (e, []) w w' ∨ ∃ b d, Refines peer (e.sendKind packetTypeProto b d) w w') :=
    ⟨w, rfl, .inl (hsame w hends rfl rfl)⟩
  have hpush : ∀ b, ∃ w', pushProto peer b w = (.ok (), w') ∧
      (Refines peer (e, []) w w' ∨ ∃ b d, Refines peer (e.sendKind packetTypeProto b d) w w') :=
    fun b => ⟨_, rfl, .inl (hsame _ ⟨hends.session, hends.buf, hends.initSeq, hends.inbox⟩ rfl rfl)⟩
  have hanswer : ∀ b, ∃ w', protoSend queueing peer b w = (.ok (), w') ∧
      (Refines peer (e, []) w w' ∨ ∃ b d, Refines peer (e.sendKind packetTypeProto b d) w w') := by
    intro b
    obtain ⟨d, w', hrun, hrefines⟩ := sessionSendKind_refines hpoint hends hroom packetTypeProto
      ⟨b, .proto⟩
    exact ⟨w', hrun, .inr ⟨b, d, hrefines⟩⟩
  rw [handleProtoBytes, router, Prog.gets_bind]
  cases payload with
  | nil => exact hignored
  | cons kind rest =>
    dsimp only
    split_ifs
    · exact hanswer _
    · exact hpush _
    · rw [handleDebugBytes, router, Prog.gets_bind]
      cases rest with
      | nil => exact hignored
      | cons kind rest =>
        dsimp only
        split_ifs
        · exact hanswer _
        · exact hanswer _
        · exact hanswer _
        · exact hpush _
        · exact hignored
    · exact hignored

/-- A decrypted payload reaches the inbox as the endpoint's does. -/
theorem deliver_refines (hroom : e.Roomy 1) (payload : Bytes) :
    ∃ w', deliver queueing peer payload w = (.ok (), w') ∧
      (Refines peer ({ e with inbox := Endpoint.deliver e.inbox payload }, []) w w' ∨
        ∃ b d, Refines peer
          ({ e with inbox := Endpoint.deliver e.inbox payload }.sendKind packetTypeProto b d) w w') := by
  have hsame : ∀ {e' : Endpoint}, w.Ends peer e' → Refines peer (e', []) w w := fun h =>
    ⟨h, ⟨[], (List.append_nil _).symm, .nil⟩, rfl⟩
  cases payload with
  | nil => exact ⟨w, rfl, .inl (hsame hends)⟩
  | cons kind payload =>
    rw [deliver, Endpoint.deliver]
    split_ifs with htraffic hproto
    · refine ⟨_, rfl, .inl ⟨⟨hends.session, hends.buf, hends.initSeq, ?_⟩,
        ⟨[], (List.append_nil _).symm, .nil⟩, rfl⟩⟩
      show ((w.router.inbox ++ [(peer, payload)]).filter fun x => x.1 = peer).map Prod.snd = _
      rw [List.filter_append, List.map_append, hends.inbox]
      simp
    · exact handleProtoBytes_refines hpoint hends hroom payload
    · exact ⟨w, rfl, .inl (hsame hends)⟩

end Receive

theorem takeInitSeq_run (w : World) :
    takeInitSeq w = (.ok (nextInitSeq (w.env.unixNow w.tick) w.router.sess.initSeq),
      { w with
        tick := w.tick + 1
        router.sess.initSeq := nextInitSeq (w.env.unixNow w.tick) w.router.sess.initSeq }) := rfl

/-- Traffic from a peer without a session: an init with keys that are not kept. -/
theorem onTraffic_of_none (netSend : NetSend) (hnone : w.router.sess.sessions.lookup peer = none)
    (ct : Bytes) (t : Instant) :
    ∃ seq, seq = nextInitSeq (w.env.unixNow (w.tick + 3))
        (nextInitSeq (w.env.unixNow w.tick) w.router.sess.initSeq) ∧
      onTraffic netSend peer ct t w =
        (encryptInit ⟨(freshBox (w.env.boxKey (w.tick + 1))).pub,
            (freshBox (w.env.boxKey (w.tick + 2))).pub, 0, seq⟩ sessionTypeInit peer >>=
          netSend peer) { w with tick := w.tick + 4, router.sess.initSeq := seq } := by
  refine ⟨_, rfl, ?_⟩
  rw [onTraffic, run_bind_ok (takeInitSeq_run w), router, Prog.gets_bind]
  simp only [hnone]
  rfl

/-- Traffic of a session. -/
theorem onTraffic_of_some (netSend : NetSend) {s : Session} {t₀ : Instant}
    (hsome : w.router.sess.sessions.lookup peer = some (s, t₀)) (ct : Bytes) (t : Instant) :
    ∃ v : World, v = { w with
        tick := w.tick + 3
        router.sess.initSeq := nextInitSeq (w.env.unixNow w.tick) w.router.sess.initSeq } ∧
      ∀ opened, s.decryptChecked ct (freshBox (w.env.boxKey (w.tick + 1)))
          (w.env.now (w.tick + 2)) = opened →
        onTraffic netSend peer ct t w =
          match opened with
          | some (s', some payload) => deliver netSend peer payload
              { v with router.sess.sessions := v.router.sess.sessions.insert peer (s', t) }
          | some (_, none) =>
              (encryptInit (s.makeInit v.router.sess.initSeq) sessionTypeInit peer >>=
                netSend peer) v
          | none => (.error .panic, v) := by
  refine ⟨_, rfl, fun opened hopened => ?_⟩
  rw [onTraffic, run_bind_ok (takeInitSeq_run w), router, Prog.gets_bind]
  simp only [hsome, fresh, draw_bind, now, hopened]
  obtain _ | ⟨s', _ | payload⟩ := opened <;> rfl

/-- The traffic arm, in a call in which the clock of seconds does not move. -/
theorem onTraffic_refines (hpoint : (edToCurvePub peer).isSome) (hends : w.Ends peer e)
    (hroom : e.Roomy 2) {ct : Bytes} (hheader : ∀ s, e.session = some s → s.headerFull ct = false)
    (hclock : w.env.unixNow (w.tick + 3) = w.env.unixNow w.tick) (t : Instant) :
    ∃ d w', onTraffic queueing peer ct t w = (.ok (), w') ∧
      (Refines peer (e.onTraffic ct d) w w' ∨
        ∃ b d', Refines peer ((e.onTraffic ct d).1.sendKind packetTypeProto b d') w w') := by
  obtain ⟨d, hd⟩ : ∃ d, d = w.drawn 1 2 0 0 0 0 2 := ⟨_, rfl⟩
  cases hlookup : w.router.sess.sessions.lookup peer with
  | none =>
    have hnone : e.session = none := by rw [← hends.session, hlookup]; rfl
    obtain ⟨seq, hseq, hstart⟩ := onTraffic_of_none queueing hlookup ct t
    obtain ⟨b, hspells, hrun⟩ := encryptInit_queueing hpoint false
      ⟨(freshBox (w.env.boxKey (w.tick + 1))).pub, (freshBox (w.env.boxKey (w.tick + 2))).pub, 0, seq⟩
      { w with tick := w.tick + 4, router.sess.initSeq := seq }
    refine ⟨d, _, hstart.trans hrun, .inl ?_⟩
    rw [Endpoint.onTraffic, hnone, ← hends.initSeq]
    rw [hclock] at hseq
    subst hd hseq
    exact ⟨⟨hends.session.trans hnone, hends.buf, rfl, hends.inbox⟩, ⟨_, rfl, .cons hspells .nil⟩, rfl⟩
  | some x =>
    obtain ⟨s, t₀⟩ := x
    have hsome : e.session = some s := by rw [← hends.session, hlookup]; rfl
    have hcount := hroom s hsome
    have hfits : s.decryptChecked ct d.first d.now = some (s.decrypt ct d.first d.now) := by
      refine (s.decryptChecked_cases ct d.first d.now).resolve_right fun hnone => ?_
      rcases hnone.2 with hfull | hlast
      · rw [hheader s hsome] at hfull
        cases hfull
      · exact succ_ne_zero (by omega) hlast
    obtain ⟨v, hv, hruns⟩ := onTraffic_of_some queueing hlookup ct t
    have hstart := hruns _ (hd ▸ hfits)
    obtain ⟨r, hr⟩ : ∃ r, s.decrypt ct d.first d.now = r := ⟨_, rfl⟩
    have hmoved := s.toNat_localKeySeq_decrypt_le d.first d.now ct
    rw [← hd, hr] at hstart
    rw [hr] at hmoved
    obtain ⟨s', payload | payload⟩ := r
    · obtain ⟨b, hspells, hrun⟩ := encryptInit_queueing hpoint false
        (s.makeInit v.router.sess.initSeq) v
      refine ⟨d, _, hstart.trans hrun, .inl ?_⟩
      rw [Endpoint.onTraffic, hsome]
      simp only [hr]
      rw [← hends.initSeq]
      subst hv hd
      exact ⟨⟨hends.session.trans hsome, hends.buf, rfl, hends.inbox⟩,
        ⟨_, rfl, .cons hspells .nil⟩, rfl⟩
    · -- The session moves on, and the payload is handed on.
      have hstored : World.Ends { v with
          router.sess.sessions := v.router.sess.sessions.insert peer (s', t) } peer
          { e with session := some s', initSeq := nextInitSeq d.unixNow e.initSeq } := by
        subst hv
        refine ⟨?_, hends.buf, ?_, hends.inbox⟩
        · show ((w.router.sess.sessions.insert peer (s', t)).lookup peer).map Prod.fst = some s'
          rw [AList.lookup_insert]
          rfl
        · rw [← hends.initSeq, hd]
          rfl
      have hroom' : Endpoint.Roomy
          { e with session := some s', initSeq := nextInitSeq d.unixNow e.initSeq } 1 := by
        intro _ h
        cases h
        have hle : s'.localKeySeq.toNat ≤ s.localKeySeq.toNat + 1 := hmoved
        omega
      obtain ⟨w', hrun, hrefines⟩ := deliver_refines hpoint hstored hroom' payload
      refine ⟨d, w', hstart.trans hrun, ?_⟩
      rw [Endpoint.onTraffic, hsome]
      simp only [hr]
      subst hv
      refine hrefines.imp (fun h => ⟨h.ends, h.sent, h.key⟩) ?_
      rintro ⟨b, d', h⟩
      exact ⟨b, d', h.ends, h.sent, h.key⟩

/-- An init or ack that opens. -/
theorem handleSessionBytes_of_init (netSend : NetSend) {data : Bytes} {init : SessionInit}
    (hdecrypt : SessionInit.decryptMsg (edToCurvePriv w.router.key) peer data = some init) :
    handleSessionBytes netSend peer data w =
      onInit netSend peer (data.head? = some sessionTypeAck) init (w.env.now w.tick)
        { w with tick := w.tick + 1 } := by
  rcases SessionInit.head_of_decryptMsg hdecrypt with hkind | hkind
  · rw [handleSessionBytes, hkind]
    simp only [now, draw_bind, true_or, if_true, router, Prog.gets_bind, hdecrypt]
    rfl
  · rw [handleSessionBytes, hkind]
    simp only [now, draw_bind, or_true, if_true, router, Prog.gets_bind, hdecrypt]

/-- The message that bytes from a peer are. -/
def sessionMsg (key peer : Key) (data : Bytes) : Option SessionMsg :=
  if data.head? = some sessionTypeTraffic then some (.traffic data)
  else
    (SessionInit.decryptMsg (edToCurvePriv key) peer data).map
      (.init (data.head? = some sessionTypeAck))

/-- **`handle_session_bytes` receives as an endpoint does**, in a call in which every sum fits and
the clock of seconds does not move. A payload of the protocol inside the session may be answered at
once. -/
theorem handleSessionBytes_refines (hpoint : (edToCurvePub peer).isSome) (hends : w.Ends peer e)
    (hroom : e.Roomy 2) {data : Bytes}
    (hheader : ∀ s, e.session = some s → s.headerFull data = false)
    (hclock : w.env.unixNow (w.tick + 4) = w.env.unixNow (w.tick + 1)) {msg : SessionMsg}
    (hmsg : sessionMsg w.router.key peer data = some msg) :
    ∃ d w', handleSessionBytes queueing peer data w = (.ok (), w') ∧
      (Refines peer (e.receive msg d) w w' ∨
        ∃ b d', Refines peer ((e.receive msg d).1.sendKind packetTypeProto b d') w w') := by
  have hticked : World.Ends { w with tick := w.tick + 1 } peer e :=
    ⟨hends.session, hends.buf, hends.initSeq, hends.inbox⟩
  unfold sessionMsg at hmsg
  split at hmsg
  · rename_i hkind
    cases hmsg
    obtain ⟨d, w', hrun, hrefines⟩ := onTraffic_refines hpoint hticked hroom hheader hclock
      (w.env.now w.tick)
    refine ⟨d, w', ?_, ?_⟩
    · rw [← hrun, handleSessionBytes, hkind]
      rfl
    · refine hrefines.imp (fun h => ⟨h.ends, h.sent, h.key⟩) ?_
      rintro ⟨b, d', h⟩
      exact ⟨b, d', h.ends, h.sent, h.key⟩
  · rename_i hkind
    obtain ⟨init, hdecrypt, rfl⟩ := Option.map_eq_some_iff.mp hmsg
    have hroom' : e.Roomy 1 := fun s hs => by
      have := hroom s hs
      omega
    obtain ⟨d, w', hrun, hrefines⟩ := onInit_refines hpoint hticked hroom'
      (data.head? = some sessionTypeAck) init (w.env.now w.tick)
    exact ⟨d, w', (handleSessionBytes_of_init queueing hdecrypt).trans hrun,
      .inl ⟨hrefines.ends, hrefines.sent, hrefines.key⟩⟩

end Roots

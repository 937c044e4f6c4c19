import Roots.Crypto.Sample
import Roots.Session.Basic

/-!
# Roots.Session.Endpoint

One end of a session as the router keeps it: the entries of `SessionState` for one
peer (an open session, or the buffer of a pending open), the init sequence
counter, and what was delivered. The functions below are what
`handle_session_bytes` and `session_send_kind` of `src/session.rs` do to those
entries and the messages they hand to `net_send`, in order.

Inits and acks stand here for their contents: `SessionInit::decrypt_msg` of the
bytes `SessionInit::encrypt_msg` made is the init itself. Traffic is bytes. A
protocol payload that makes the receiver answer is a receipt followed by a send.
-/

namespace Roots

open Sample (smallKey)

variable [Crypto]

/-- `SessionBuf`: the keys of a pending open, the init that announces them, and
the one payload held for when it completes. -/
structure SessionBuf where
  init : SessionInit
  send : BoxKeys
  nextKeys : BoxKeys
  data : Option (UInt8 × Bytes)
  current_eq : init.current = send.pub
  next_eq : init.next = nextKeys.pub
  keySeq_eq : init.keySeq = 0

/-- A message between the two ends, below the routing layer. -/
inductive SessionMsg where
  | init (isAck : Bool) (init : SessionInit)
  | traffic (ct : Bytes)
deriving DecidableEq

/-- The bytes of a traffic message. -/
def SessionMsg.traffic? : SessionMsg → Option Bytes
  | .traffic ct => some ct
  | .init _ _ => none

/-- What one call of `encrypt` seals: the keys of the box, the counter value and the
plaintext. -/
structure Sealing where
  ours : BoxKeys
  theirs : Key
  nonce : UInt64
  plain : Bytes

/-- The sealing of a message under the present counter. -/
def Session.sealing (s : Session) (msg : Bytes) : Sealing where
  ours := s.send
  theirs := s.current
  nonce := s.sendNonce
  plain := s.nextKeys.pub.toList ++ msg

/-- The state of one end. `sealed` records what `encrypt` sealed, oldest first; nothing
reads it. -/
structure Endpoint where
  session : Option Session
  buf : Option SessionBuf
  initSeq : UInt64
  inbox : List Bytes
  sealed : List Sealing

/-- What a call draws: key pairs in the order `fresh_box` is called for them, the
seconds of the wall clock and the monotonic clock. -/
structure Draw where
  first : BoxKeys
  second : BoxKeys
  third : BoxKeys
  fourth : BoxKeys
  fifth : BoxKeys
  unixNow : UInt64
  now : Instant

/-- Five key pairs with consecutive secret keys. -/
def Draw.numbered (base : UInt8) (unixNow : UInt64) : Draw where
  first := freshBox (smallKey base)
  second := freshBox (smallKey (base + 1))
  third := freshBox (smallKey (base + 2))
  fourth := freshBox (smallKey (base + 3))
  fifth := freshBox (smallKey (base + 4))
  unixNow := unixNow
  now := 0

namespace Endpoint

/-- `session_send_inner`: encrypt under the session that is there. -/
def sendInner (e : Endpoint) (s : Session) (kind : UInt8) (msg : Bytes) (fresh : BoxKeys) :
    Endpoint × List SessionMsg :=
  let r := s.encrypt (kind :: msg) fresh
  ({ e with
      session := some r.1
      sealed := e.sealed ++ [r.1.sealing (kind :: msg)] }, [.traffic r.2])

/-- The buffer `session_send_kind` inserts when there is none. -/
def newBuf (seq : UInt64) (send nextKeys : BoxKeys) : SessionBuf where
  init := { current := send.pub, next := nextKeys.pub, keySeq := 0, seq := seq }
  send := send
  nextKeys := nextKeys
  data := none
  current_eq := rfl
  next_eq := rfl
  keySeq_eq := rfl

/-- `session_send_kind`: encrypt now, or hold the payload behind an init. A later
payload replaces the one that is held. -/
def sendKind (e : Endpoint) (kind : UInt8) (msg : Bytes) (d : Draw) :
    Endpoint × List SessionMsg :=
  match e.session with
  | some s => e.sendInner s kind msg d.first
  | none =>
      let seq := nextInitSeq d.unixNow e.initSeq
      let buf := { e.buf.getD (newBuf seq d.first d.second) with data := some (kind, msg) }
      ({ e with buf := some buf, initSeq := seq }, [.init false buf.init])

/-- The init and ack arm without a session: create one, adopt the buffered keys,
handle the message as an init whatever its type, and flush the held payload. -/
def openSession (e : Endpoint) (init : SessionInit) (d : Draw) : Endpoint × List SessionMsg :=
  let s := Session.forInit init d.first d.second d.third
  let s := match e.buf with
    | some buf => s.adoptBuffered buf.send buf.nextKeys
    | none => s
  let seq := nextInitSeq d.unixNow e.initSeq
  let r := s.handleInit init seq d.fourth
  let e' := { e with session := some r.1, buf := none, initSeq := seq }
  let acks := (r.2.map (SessionMsg.init true)).toList
  match e.buf.bind SessionBuf.data with
  | some (kind, payload) =>
      let sent := e'.sendInner r.1 kind payload d.fifth
      (sent.1, acks ++ sent.2)
  | none => (e', acks)

/-- The end of `openSession`: the ack and the payload that was held go out. -/
def ackAndFlush (e : Endpoint) (s : Session) (ack : Option SessionInit)
    (buf : Option SessionBuf) (keys : BoxKeys) : Endpoint × List SessionMsg :=
  match buf.bind SessionBuf.data with
  | some (kind, payload) =>
      ((e.sendInner s kind payload keys).1,
        (ack.map (SessionMsg.init true)).toList ++ (e.sendInner s kind payload keys).2)
  | none => (e, (ack.map (SessionMsg.init true)).toList)

/-- The init and ack arm of `handle_session_bytes`. -/
def onInit (e : Endpoint) (isAck : Bool) (init : SessionInit) (d : Draw) :
    Endpoint × List SessionMsg :=
  match e.session with
  | none => e.openSession init d
  | some s =>
      if isAck then ({ e with session := some (s.handleAck init d.first) }, [])
      else
        let seq := nextInitSeq d.unixNow e.initSeq
        let r := s.handleInit init seq d.first
        ({ e with session := some r.1, initSeq := seq },
          (r.2.map (SessionMsg.init true)).toList)

/-- The inbox after a decrypted payload: the packet-type byte is stripped. -/
def deliver (inbox : List Bytes) : Bytes → List Bytes
  | [] => inbox
  | kind :: payload => if kind = packetTypeTraffic then inbox ++ [payload] else inbox

/-- The traffic arm of `handle_session_bytes`. What does not decrypt is answered
with an init of the session; an unknown peer gets an init with keys that are not
kept. -/
def onTraffic (e : Endpoint) (ct : Bytes) (d : Draw) : Endpoint × List SessionMsg :=
  let seq := nextInitSeq d.unixNow e.initSeq
  match e.session with
  | some s =>
      match s.decrypt ct d.first d.now with
      | (s', some payload) =>
          ({ e with session := some s', initSeq := seq, inbox := deliver e.inbox payload }, [])
      | (_, none) => ({ e with initSeq := seq }, [.init false (s.makeInit seq)])
  | none =>
      let seq' := nextInitSeq d.unixNow seq
      ({ e with initSeq := seq' },
        [.init false { current := d.first.pub, next := d.second.pub, keySeq := 0, seq := seq' }])

/-- `handle_session_bytes`. -/
def receive (e : Endpoint) (msg : SessionMsg) (d : Draw) : Endpoint × List SessionMsg :=
  match msg with
  | .init isAck init => e.onInit isAck init d
  | .traffic ct => e.onTraffic ct d

/-- An end that has not talked to the peer yet. -/
def fresh (initSeq : UInt64) : Endpoint where
  session := none
  buf := none
  initSeq := initSeq
  inbox := []
  sealed := []

end Endpoint

/-! ## What a message does -/

variable {e : Endpoint} {s : Session}

/-- The init with keys that nobody keeps. -/
def Endpoint.throwaway (e : Endpoint) (d : Draw) : SessionInit where
  current := d.first.pub
  next := d.second.pub
  keySeq := 0
  seq := nextInitSeq d.unixNow (nextInitSeq d.unixNow e.initSeq)

theorem receive_traffic_of_none (h : e.session = none) (ct : Bytes) (d : Draw) :
    e.receive (.traffic ct) d =
      ({ e with initSeq := (e.throwaway d).seq }, [.init false (e.throwaway d)]) := by
  rw [Endpoint.receive, Endpoint.onTraffic, h]
  rfl

theorem receive_init_of_lt (h : e.session = some s) {init : SessionInit} (hlt : s.seq < init.seq)
    (d : Draw) :
    e.receive (.init false init) d =
      ({ e with
          session := some (s.applyUpdate init d.first)
          initSeq := nextInitSeq d.unixNow e.initSeq },
        [.init true ((s.applyUpdate init d.first).makeInit (nextInitSeq d.unixNow e.initSeq))]) := by
  rw [Endpoint.receive, Endpoint.onInit, h]
  simp only [Session.handleInit_of_lt hlt]
  rfl

theorem receive_ack_of_lt (h : e.session = some s) {ack : SessionInit} (hlt : s.seq < ack.seq)
    (d : Draw) :
    e.receive (.init true ack) d = ({ e with session := some (s.applyUpdate ack d.first) }, []) := by
  rw [Endpoint.receive, Endpoint.onInit, h]
  simp only [Session.handleAck_of_lt hlt]
  rfl

/-- The session an end makes for a message, before it takes the message in. -/
def Endpoint.opening (e : Endpoint) (init : SessionInit) (d : Draw) : Session :=
  match e.buf with
  | some buf => (Session.forInit init d.first d.second d.third).adoptBuffered buf.send buf.nextKeys
  | none => Session.forInit init d.first d.second d.third

theorem opening_seq (e : Endpoint) (init : SessionInit) (d : Draw) :
    (e.opening init d).seq = init.seq - 1 := by
  unfold Endpoint.opening
  split <;> rfl

theorem opening_sendNonce (e : Endpoint) (init : SessionInit) (d : Draw) :
    (e.opening init d).sendNonce = 0 := by
  unfold Endpoint.opening
  split <;> rfl

theorem opening_localKeySeq (e : Endpoint) (init : SessionInit) (d : Draw) :
    (e.opening init d).localKeySeq = 0 := by
  unfold Endpoint.opening
  split <;> rfl

theorem opening_remoteKeySeq (e : Endpoint) (init : SessionInit) (d : Draw) :
    (e.opening init d).remoteKeySeq = 0 := by
  unfold Endpoint.opening
  split <;> rfl

theorem openSession_eq (e : Endpoint) (init : SessionInit) (d : Draw) :
    e.openSession init d =
      Endpoint.ackAndFlush
        { e with
          session := some
            ((e.opening init d).handleInit init (nextInitSeq d.unixNow e.initSeq) d.fourth).1
          buf := none
          initSeq := nextInitSeq d.unixNow e.initSeq }
        ((e.opening init d).handleInit init (nextInitSeq d.unixNow e.initSeq) d.fourth).1
        ((e.opening init d).handleInit init (nextInitSeq d.unixNow e.initSeq) d.fourth).2
        e.buf d.fifth := by
  unfold Endpoint.openSession Endpoint.opening Endpoint.ackAndFlush
  cases e.buf <;> rfl

/-- The end that has no session opens one with the ack, answers with an ack and flushes. -/
theorem receive_ack_of_none (h : e.session = none) {ack : SessionInit} (hack : ack.seq ≠ 0)
    (d : Draw) :
    e.receive (.init true ack) d =
      Endpoint.ackAndFlush
        { e with
          session := some ((e.opening ack d).applyUpdate ack d.fourth)
          buf := none
          initSeq := nextInitSeq d.unixNow e.initSeq }
        ((e.opening ack d).applyUpdate ack d.fourth)
        (some (((e.opening ack d).applyUpdate ack d.fourth).makeInit
          (nextInitSeq d.unixNow e.initSeq)))
        e.buf d.fifth := by
  rw [Endpoint.receive, Endpoint.onInit, h]
  simp only [openSession_eq, Session.handleInit_of_new hack (opening_seq e ack d)]

theorem receive_traffic_of_decrypts (h : e.session = some s) {ct payload : Bytes} {d : Draw}
    (hpayload : (s.decrypt ct d.first d.now).2 = some payload) :
    e.receive (.traffic ct) d =
      ({ e with
          session := some (s.decrypt ct d.first d.now).1
          initSeq := nextInitSeq d.unixNow e.initSeq
          inbox := Endpoint.deliver e.inbox payload }, []) := by
  rw [Endpoint.receive, Endpoint.onTraffic, h]
  obtain ⟨s', hs'⟩ : ∃ s', s.decrypt ct d.first d.now = (s', some payload) :=
    ⟨_, Prod.ext rfl hpayload⟩
  simp only [hs']

theorem receive_traffic_of_refused (h : e.session = some s) {ct : Bytes} {d : Draw}
    (hrefused : (s.decrypt ct d.first d.now).2 = none) :
    e.receive (.traffic ct) d =
      ({ e with initSeq := nextInitSeq d.unixNow e.initSeq },
        [.init false (s.makeInit (nextInitSeq d.unixNow e.initSeq))]) := by
  rw [Endpoint.receive, Endpoint.onTraffic, h]
  obtain ⟨s', hs'⟩ : ∃ s', s.decrypt ct d.first d.now = (s', none) := ⟨_, Prod.ext rfl hrefused⟩
  simp only [hs']

end Roots

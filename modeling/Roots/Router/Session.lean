import Roots.Router.Forward
import Roots.Session.Checked

/-!
# Roots.Router.Session

The router's half of `src/session.rs` and the protocol handler of `src/proto.rs`:
sending a payload through a session or behind an init, and what the bytes of an inbound
traffic packet do.

Everything here ends in `net_send`, and `net_send` can come back here (a lookup for a
key of this very node is answered at once, and the answer flushes a payload that
waited for it). The functions therefore take `net_send` as an argument, and
`Roots.Router.Path` ties the knot.

The key sequences are those of a build that **checks its sums**: one that does not fit is a panic,
and leaves the table as far as the source got with it.
-/

namespace Roots

open Prog RouterM

variable [Crypto]

/-- `net_send`. -/
abbrev NetSend := Key → Bytes → RouterM Unit

/-- The session that is made for a message, before it takes the message in: `for_init` and, if
there was a buffer, `adopt_buffered`. -/
def Session.opening (init : SessionInit) (held : Option HeldBuf) (recv send next : BoxKeys) :
    Session :=
  match held with
  | some held =>
      (Session.forInit init recv send next).adoptBuffered held.buf.send held.buf.nextKeys
  | none => Session.forInit init recv send next

namespace RouterM

/-- `next_init_seq`. -/
def takeInitSeq : RouterM UInt64 := do
  let t ← unixNow
  let r ← router
  let seq := nextInitSeq t r.sess.initSeq
  modifySess fun s => { s with initSeq := seq }
  return seq

/-- `encrypt_msg` with the router's key. A destination that is not a curve point fails
its `expect`. -/
def encryptInit (init : SessionInit) (msgType : UInt8) (dest : Key) : RouterM Bytes := do
  let r ← router
  let eph ← draw Env.boxKey
  match init.encryptMsg msgType r.key dest eph with
  | some enc => return enc
  | none => exit .panic

/-- A sum that does not fit is a panic. -/
def checked {α : Type} : Option α → RouterM α
  | some a => return a
  | none => exit .panic

/-- A session takes its place in the table. -/
def storeSession (peer : Key) (s : Session) (active : Instant) : RouterM Unit :=
  modifySess fun ss => { ss with sessions := ss.sessions.insert peer (s, active) }

/-! ## Sending -/

/-- `session_send_inner`. A payload whose write failed is kept for a retry. -/
def sessionSendInner (netSend : NetSend) (dest : Key) (kind : UInt8) (msg : Payload) :
    RouterM Unit := do
  let r ← router
  match r.sess.sessions.lookup dest with
  | none => return ()
  | some (s, _) =>
      let t ← now
      let keys ← fresh
      let plain := kind :: msg.bytes
      record (.sealed dest plain msg)
      let sealed ← checked (s.encryptChecked plain keys)
      storeSession dest sealed.1 t
      let sent ← result (netSend dest sealed.2)
      match sent with
      | .ok _ => record (.carried dest msg)
      | .error e =>
          modifySess fun ss => { ss with resend := ss.resend ++ [(dest, msg)] }
          exit e

/-- The buffer of `session_send_kind`: the one that is there or a new one, with the
payload and a new deadline. -/
def holdBehindInit (held : Option HeldBuf) (seq : UInt64) (send next : BoxKeys) (kind : UInt8)
    (msg : Payload) (now : Instant) : HeldBuf where
  buf := { (held.map HeldBuf.buf).getD (Endpoint.newBuf seq send next) with
    data := some (kind, msg.bytes) }
  tag := msg.tag
  deadline := now + sessionTimeout

/-- The payload of a buffer, with its destination. -/
def inHand (dest : Key) (held : Option HeldBuf) : List (Key × Payload) :=
  ((held.bind HeldBuf.data).map fun x => (dest, x.2)).toList

/-- Another payload takes the place of the one in a buffer. -/
def displace (dest : Key) (held : Option HeldBuf) : RouterM Unit :=
  modify fun w =>
    { w with events := w.events ++ (inHand dest held).map fun x => .displaced x.1 x.2 }

/-- `session_send_kind`: encrypt now, or hold the payload behind an init. -/
def sessionSendKind (netSend : NetSend) (dest : Key) (kind : UInt8) (msg : Payload) :
    RouterM Unit := do
  let r ← router
  if dest ∈ r.sess.sessions then sessionSendInner netSend dest kind msg
  else
    let t ← now
    let seq ← takeInitSeq
    let send ← fresh
    let next ← fresh
    let held := holdBehindInit (r.sess.bufs.lookup dest) seq send next kind msg t
    displace dest (r.sess.bufs.lookup dest)
    modifySess fun s => { s with bufs := s.bufs.insert dest held }
    let enc ← encryptInit held.buf.init sessionTypeInit dest
    netSend dest enc

/-- `session_send`. -/
def sessionSend (netSend : NetSend) (dest : Key) (msg : Payload) : RouterM Unit := do
  record (.passed dest msg)
  sessionSendKind netSend dest packetTypeTraffic msg

/-! ## The protocol inside a session -/

def protoNodeinfoReq : UInt8 := 1
def protoNodeinfoRes : UInt8 := 2
def protoDebug : UInt8 := 255
def debugGetselfReq : UInt8 := 1
def debugGetselfRes : UInt8 := 2
def debugGetpeersReq : UInt8 := 3
def debugGetpeersRes : UInt8 := 4
def debugGettreeReq : UInt8 := 5
def debugGettreeRes : UInt8 := 6

/-- `PROTO_RESPONSE_MAX`. -/
def protoResponseMax : Nat := 65535 - 64

/-- `proto_send`. -/
def protoSend (netSend : NetSend) (dest : Key) (payload : Bytes) : RouterM Unit :=
  sessionSendKind netSend dest packetTypeProto ⟨payload, .proto⟩

omit [Crypto] in
/-- The bytes of an ASCII text. -/
def ascii (s : String) : Bytes := s.toList.map fun c => UInt8.ofNat c.toNat

/-- The JSON of a getSelf response. -/
def selfBody (r : Router) : Bytes :=
  ascii "\x7b\"key\":\"" ++ (Str.Hex.encode r.pubkey.toList).map Str.byte ++
    ascii "\",\"routing_entries\":\"" ++ ascii (toString r.tree.infos.keys.length) ++ ascii "\"\x7d"

omit [Crypto] in
/-- The loop of `concat_keys`: stop at the first key that does not fit. -/
def concatKeysLoop (out : Bytes) : List Key → Bytes
  | [] => out
  | k :: keys =>
      if protoResponseMax < out.length + keyLen + 2 then out
      else concatKeysLoop (out ++ k.toList) keys

omit [Crypto] in
/-- `concat_keys`. -/
def concatKeys (dispatch subtype : UInt8) (keys : List Key) : Bytes :=
  concatKeysLoop [dispatch, subtype] keys

/-- A payload goes to the protocol inbox. -/
def pushProto (src : Key) (payload : Bytes) : RouterM Unit :=
  modifyRouter fun r => { r with protoInbox := r.protoInbox ++ [(src, payload)] }

/-- `handle_debug_bytes`. -/
def handleDebugBytes (netSend : NetSend) (src : Key) (payload : Bytes) : RouterM Unit := do
  let r ← router
  match payload with
  | [] => return ()
  | kind :: _ =>
      if kind = debugGetselfReq then
        protoSend netSend src (protoDebug :: debugGetselfRes :: selfBody r)
      else if kind = debugGetpeersReq then
        protoSend netSend src
          (concatKeys protoDebug debugGetpeersRes (sortKeys r.tree.peers.keys))
      else if kind = debugGettreeReq then
        protoSend netSend src
          (concatKeys protoDebug debugGettreeRes (sortKeys r.tree.infos.keys))
      else if kind = debugGetselfRes ∨ kind = debugGetpeersRes ∨ kind = debugGettreeRes then
        pushProto src (protoDebug :: payload)
      else return ()

/-- `handle_proto_bytes`. -/
def handleProtoBytes (netSend : NetSend) (src : Key) (payload : Bytes) : RouterM Unit := do
  let r ← router
  match payload with
  | [] => return ()
  | kind :: rest =>
      if kind = protoNodeinfoReq then protoSend netSend src (protoNodeinfoRes :: r.nodeinfo)
      else if kind = protoNodeinfoRes then pushProto src payload
      else if kind = protoDebug then handleDebugBytes netSend src rest
      else return ()

/-! ## Receiving -/

/-- Answer an init that was accepted. -/
def sendAck (netSend : NetSend) (dest : Key) : Option SessionInit → RouterM Unit
  | none => return ()
  | some ack => do
      let enc ← encryptInit ack sessionTypeAck dest
      netSend dest enc

/-- The ack goes out, and then the payload that waited. -/
def ackAndFlush (netSend : NetSend) (src : Key) (ack : Option SessionInit)
    (held : Option HeldBuf) : RouterM Unit := do
  orLose (inHand src held) (sendAck netSend src ack)
  match held.bind HeldBuf.data with
  | none => return ()
  | some (kind, payload) => sessionSendInner netSend src kind payload

/-- The init and ack arm without a session: create one, adopt the buffered keys, handle
the message as an init whatever its type, and flush the held payload. The buffer is gone
before the ack is sent. -/
def openSession (netSend : NetSend) (src : Key) (init : SessionInit) (t : Instant) :
    RouterM Unit := do
  let r ← router
  let recv ← fresh
  let send ← fresh
  let next ← fresh
  let buffered := r.sess.bufs.lookup src
  let s := Session.opening init buffered recv send next
  modifySess fun ss =>
    { ss with bufs := ss.bufs.erase src, sessions := ss.sessions.insert src (s, t) }
  let ackSeq ← takeInitSeq
  let keys ← fresh
  let handled ← checked (s.handleInitChecked init ackSeq keys)
  storeSession src handled.1 t
  ackAndFlush netSend src handled.2 buffered

/-- The sum at the end of `apply_update` does not fit: the other fields are set already. -/
def abortUpdate (src : Key) (s updated : Session) (t : Instant) : RouterM Unit := do
  storeSession src (updated.withLocalKeySeq s.localKeySeq) t
  exit .panic

/-- The init and ack arm of `handle_session_bytes`. -/
def onInit (netSend : NetSend) (src : Key) (isAck : Bool) (init : SessionInit) (t : Instant) :
    RouterM Unit := do
  let r ← router
  match r.sess.sessions.lookup src with
  | none => openSession netSend src init t
  | some (s, _) =>
      if isAck then
        let keys ← fresh
        match s.handleAckChecked init keys with
        | some s' => storeSession src s' t
        | none => abortUpdate src s (s.handleAck init keys) t
      else
        let ackSeq ← takeInitSeq
        let keys ← fresh
        match s.handleInitChecked init ackSeq keys with
        | some handled =>
            storeSession src handled.1 t
            sendAck netSend src handled.2
        | none => abortUpdate src s (s.handleInit init ackSeq keys).1 t

/-- A decrypted payload: to the inbox, to the protocol handler, or dropped. -/
def deliver (netSend : NetSend) (src : Key) : Bytes → RouterM Unit
  | [] => return ()
  | kind :: payload =>
      if kind = packetTypeTraffic then
        modify fun w =>
          { w with
            router.inbox := w.router.inbox ++ [(src, payload)]
            events := w.events ++ [.delivered src payload] }
      else if kind = packetTypeProto then handleProtoBytes netSend src payload
      else return ()

/-- The traffic arm of `handle_session_bytes`. What does not decrypt is answered with
an init of the session; an unknown peer gets an init with keys that are not kept. -/
def onTraffic (netSend : NetSend) (src : Key) (data : Bytes) (t : Instant) : RouterM Unit := do
  let reinitSeq ← takeInitSeq
  let r ← router
  match r.sess.sessions.lookup src with
  | some (s, _) =>
      let keys ← fresh
      let t' ← now
      let opened ← checked (s.decryptChecked data keys t')
      match opened with
      | (s', some payload) =>
          storeSession src s' t
          deliver netSend src payload
      | (_, none) =>
          let enc ← encryptInit (s.makeInit reinitSeq) sessionTypeInit src
          netSend src enc
  | none =>
      let current ← fresh
      let next ← fresh
      let seq ← takeInitSeq
      let init : SessionInit := { current := current.pub, next := next.pub, keySeq := 0, seq }
      let enc ← encryptInit init sessionTypeInit src
      netSend src enc

/-- `handle_session_bytes`. -/
def handleSessionBytes (netSend : NetSend) (src : Key) (data : Bytes) : RouterM Unit := do
  match data.head? with
  | none => return ()
  | some kind =>
      let t ← now
      if kind = sessionTypeInit ∨ kind = sessionTypeAck then
        let r ← router
        match SessionInit.decryptMsg (edToCurvePriv r.key) src data with
        | none => return ()
        | some init => onInit netSend src (kind = sessionTypeAck) init t
      else if kind = sessionTypeTraffic then onTraffic netSend src data t
      else return ()

end RouterM

end Roots

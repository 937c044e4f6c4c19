import Roots.Crypto
import Roots.Wire.Uvarint

/-!
# Roots.Session.Basic

The end-to-end session of `src/session.rs`: the init and ack messages and the
`Session` value with its ratchet of key pairs.

An end holds three of its own key pairs, which move `next → send → recv` and are
replaced by a fresh one at the `next` end, and two public keys of its peer,
`current` and `next`. The four shared secrets and the two public halves are
functions of the private keys; the source recomputes the secrets in `fix_shared`
after every move. Here that is part of the type: **a `Session` carries the
equations of its cached fields**, so a session with a stale secret cannot be
built.

The random choices of the source (`fresh_box`, the ephemeral key of an init) and
its clock readings are arguments.
-/

namespace Roots

open Wire

/-! ## Constants -/

def sessionTypeInit : UInt8 := 1
def sessionTypeAck : UInt8 := 2
def sessionTypeTraffic : UInt8 := 3
def packetTypeTraffic : UInt8 := 1
def packetTypeProto : UInt8 := 2
/-- `SESSION_INIT_SIZE`. -/
def sessionInitSize : Nat := 193
/-- `SESSION_TRAFFIC_MIN`. -/
def sessionTrafficMin : Nat := 52
/-- `SESSION_TIMEOUT`. -/
def sessionTimeout : Nat := seconds 60

/-! ## Init and ack messages -/

/-- `SessionInit`: the two box keys an end announces, the index of the first in
its key sequence, and the sequence number of the message. -/
structure SessionInit where
  current : Key
  next : Key
  keySeq : UInt64
  seq : UInt64
deriving DecidableEq

namespace SessionInit

/-- The announced fields as both the signature and the sealed payload spell
them. -/
def fieldBytes (init : SessionInit) : Bytes :=
  init.current.toList ++ init.next.toList ++ toBeBytes init.keySeq ++ toBeBytes init.seq

/-- `SessionInit::sig_bytes`. -/
def sigBytes (init : SessionInit) (ephPub : Key) : Bytes :=
  ephPub.toList ++ init.fieldBytes

variable [Crypto]

/-- `SessionInit::encrypt_msg` with the ephemeral key it generates. `none` is the
source's `expect("valid ed key")` failing. -/
def encryptMsg (init : SessionInit) (msgType : UInt8) (fromEd destEd eph : Key) :
    Option Bytes := do
  let ephPub := boxPub eph
  let destBox ← edToCurvePub destEd
  let shared := salsaBox destBox eph
  let sig := Crypto.sign fromEd (init.sigBytes ephPub)
  return msgType :: ephPub.toList ++ boxSeal shared 0 (sig.toList ++ init.fieldBytes)

/-- `SessionInit::decrypt_msg`. -/
def decryptMsg (ourBoxPriv fromEd : Key) (data : Bytes) : Option SessionInit := do
  guard (data.length = sessionInitSize)
  guard (data.head? = some sessionTypeInit ∨ data.head? = some sessionTypeAck)
  let ephPub ← arrayOf keyLen ((data.drop 1).take 32)
  let payload ← boxOpen (salsaBox ephPub ourBoxPriv) 0 (data.drop 33)
  guard (payload.length = 64 + 32 + 32 + 8 + 8)
  let sig ← arrayOf 64 (payload.take 64)
  let current ← arrayOf keyLen ((payload.drop 64).take 32)
  let next ← arrayOf keyLen ((payload.drop 96).take 32)
  let keySeq := fromBeBytes ((payload.drop 128).take 8)
  let seq := fromBeBytes ((payload.drop 136).take 8)
  -- The signature covers the ephemeral key and the fields as received.
  guard (Crypto.validKey fromEd)
  guard (Crypto.verifyStrict fromEd (ephPub.toList ++ payload.drop 64) sig)
  return { current, next, keySeq, seq }

/-- `encrypt_msg` succeeds for the keys that are points. -/
theorem encryptMsg_isSome {init : SessionInit} {msgType : UInt8} {fromEd destEd eph : Key} :
    (init.encryptMsg msgType fromEd destEd eph).isSome = (edToCurvePub destEd).isSome := by
  unfold encryptMsg
  cases edToCurvePub destEd <;> rfl

/-- A message is only opened for a key that verifies signatures. -/
theorem validKey_of_decryptMsg {ourBoxPriv fromEd : Key} {data : Bytes} {init : SessionInit}
    (h : decryptMsg ourBoxPriv fromEd data = some init) : Crypto.validKey fromEd = true := by
  simp only [decryptMsg, Option.bind_eq_bind, Option.bind_eq_some_iff] at h
  obtain ⟨_, _, _, _, _, _, _, _, _, _, _, _, _, _, _, _, _, hvalid, _⟩ := h
  simpa using hvalid

/-- And only if it says that it is an init or an ack. -/
theorem head_of_decryptMsg {ourBoxPriv fromEd : Key} {data : Bytes} {init : SessionInit}
    (h : decryptMsg ourBoxPriv fromEd data = some init) :
    data.head? = some sessionTypeInit ∨ data.head? = some sessionTypeAck := by
  simp only [decryptMsg, Option.bind_eq_bind, Option.bind_eq_some_iff] at h
  obtain ⟨_, _, _, hkind, _⟩ := h
  simpa using hkind

end SessionInit

/-- `Router::next_init_seq`: above the clock and above the last one used. The
counter saturates, the clock's `+ 1` wraps. -/
def nextInitSeq (unixNow last : UInt64) : UInt64 :=
  let next := if last + 1 = 0 then last else last + 1
  if unixNow + 1 ≤ next then next else unixNow + 1

/-- `next_init_seq` never returns zero, so the message that carries it is above
the `seq - 1` a session created from it starts with. -/
theorem nextInitSeq_ne_zero (unixNow last : UInt64) : nextInitSeq unixNow last ≠ 0 := by
  unfold nextInitSeq
  dsimp only
  split_ifs <;> grind

theorem le_nextInitSeq (unixNow last : UInt64) : last ≤ nextInitSeq unixNow last := by
  unfold nextInitSeq
  dsimp only
  split_ifs <;> grind

/-- The counter grows strictly until it is exhausted, and then it stays there. -/
theorem lt_nextInitSeq {unixNow last : UInt64} (h : nextInitSeq unixNow last + 1 ≠ 0) :
    last < nextInitSeq unixNow last := by
  unfold nextInitSeq at h ⊢
  dsimp only at h ⊢
  split_ifs at h ⊢ <;> grind

/-! ## The session value -/

/-- `Session`. The last block of fields states what `fix_shared` establishes:
each cached secret is the one of the keys it is named after. -/
structure Session [Crypto] where
  seq : UInt64
  remoteKeySeq : UInt64
  current : Key
  next : Key
  localKeySeq : UInt64
  recv : BoxKeys
  recvShared : SalsaBox
  recvNonce : UInt64
  send : BoxKeys
  sendShared : SalsaBox
  sendNonce : UInt64
  nextKeys : BoxKeys
  nextSendShared : SalsaBox
  nextSendNonce : UInt64
  nextRecvShared : SalsaBox
  nextRecvNonce : UInt64
  rotatedAt : Option Instant
  recvShared_eq : recvShared = salsaBox current recv.priv
  sendShared_eq : sendShared = salsaBox current send.priv
  nextSendShared_eq : nextSendShared = salsaBox next send.priv
  nextRecvShared_eq : nextRecvShared = salsaBox next recv.priv

namespace Session

variable [Crypto]

/-- `fix_shared` on a session whose keys have just been replaced: recompute the
four secrets (`shared4`), zero the two `next` nonces and set the other two. -/
def fixShared (s : Session) (current next : Key) (recv send nextKeys : BoxKeys)
    (recvNonce sendNonce : UInt64) : Session where
  seq := s.seq
  remoteKeySeq := s.remoteKeySeq
  current := current
  next := next
  localKeySeq := s.localKeySeq
  recv := recv
  recvShared := salsaBox current recv.priv
  recvNonce := recvNonce
  send := send
  sendShared := salsaBox current send.priv
  sendNonce := sendNonce
  nextKeys := nextKeys
  nextSendShared := salsaBox next send.priv
  nextSendNonce := 0
  nextRecvShared := salsaBox next recv.priv
  nextRecvNonce := 0
  rotatedAt := s.rotatedAt
  recvShared_eq := rfl
  sendShared_eq := rfl
  nextSendShared_eq := rfl
  nextRecvShared_eq := rfl

/-- `Session::for_init`, with the three key pairs it draws. The stored sequence
number wraps below zero. -/
def forInit (init : SessionInit) (recv send nextKeys : BoxKeys) : Session where
  seq := init.seq - 1
  remoteKeySeq := 0
  current := init.current
  next := init.next
  localKeySeq := 0
  recv := recv
  recvShared := salsaBox init.current recv.priv
  recvNonce := 0
  send := send
  sendShared := salsaBox init.current send.priv
  sendNonce := 0
  nextKeys := nextKeys
  nextSendShared := salsaBox init.next send.priv
  nextSendNonce := 0
  nextRecvShared := salsaBox init.next recv.priv
  nextRecvNonce := 0
  rotatedAt := none
  recvShared_eq := rfl
  sendShared_eq := rfl
  nextSendShared_eq := rfl
  nextRecvShared_eq := rfl

/-- `Session::adopt_buffered`. -/
def adoptBuffered (s : Session) (send nextKeys : BoxKeys) : Session :=
  s.fixShared s.current s.next s.recv send nextKeys 0 0

/-- The key move shared by `apply_update`, `encrypt` and `maybe_rotate`: `send`
becomes `recv`, `next` becomes `send`, the fresh pair becomes `next`, and the
local key sequence advances. The source's `+= 1` wraps in a release build. -/
def shiftKeys (s : Session) (current next : Key) (fresh : BoxKeys)
    (recvNonce sendNonce : UInt64) : Session :=
  { s with localKeySeq := s.localKeySeq + 1 }.fixShared current next s.send s.nextKeys fresh
    recvNonce sendNonce

/-- `Session::apply_update`. -/
def applyUpdate (s : Session) (init : SessionInit) (fresh : BoxKeys) : Session :=
  { s with seq := init.seq, remoteKeySeq := init.keySeq }.shiftKeys init.current init.next fresh
    0 s.sendNonce

section ApplyUpdate

variable (s : Session) (init : SessionInit) (fresh : BoxKeys)

@[simp]
theorem applyUpdate_send : (s.applyUpdate init fresh).send = s.nextKeys := rfl

@[simp]
theorem applyUpdate_recv : (s.applyUpdate init fresh).recv = s.send := rfl

@[simp]
theorem applyUpdate_nextKeys : (s.applyUpdate init fresh).nextKeys = fresh := rfl

@[simp]
theorem applyUpdate_current : (s.applyUpdate init fresh).current = init.current := rfl

@[simp]
theorem applyUpdate_next : (s.applyUpdate init fresh).next = init.next := rfl

@[simp]
theorem applyUpdate_sendNonce : (s.applyUpdate init fresh).sendNonce = s.sendNonce := rfl

end ApplyUpdate

/-- `Session::make_init`. -/
def makeInit (s : Session) (seq : UInt64) : SessionInit where
  current := s.send.pub
  next := s.nextKeys.pub
  keySeq := s.localKeySeq
  seq := seq

/-- `Session::handle_init`: the session afterwards and the ack to send, if the
init was accepted. -/
def handleInit (s : Session) (init : SessionInit) (ackSeq : UInt64) (fresh : BoxKeys) :
    Session × Option SessionInit :=
  if init.seq ≤ s.seq then (s, none)
  else
    let s' := s.applyUpdate init fresh
    (s', some (s'.makeInit ackSeq))

/-- `Session::handle_ack`. -/
def handleAck (s : Session) (ack : SessionInit) (fresh : BoxKeys) : Session :=
  if ack.seq ≤ s.seq then s else s.applyUpdate ack fresh

theorem handleInit_of_lt {s : Session} {init : SessionInit} (h : s.seq < init.seq)
    (ackSeq : UInt64) (fresh : BoxKeys) :
    s.handleInit init ackSeq fresh =
      (s.applyUpdate init fresh, some ((s.applyUpdate init fresh).makeInit ackSeq)) :=
  if_neg (UInt64.not_le.mpr h)

theorem handleAck_of_lt {s : Session} {ack : SessionInit} {fresh : BoxKeys}
    (h : s.seq < ack.seq) : s.handleAck ack fresh = s.applyUpdate ack fresh :=
  if_neg (UInt64.not_le.mpr h)

/-- A session created from a message with a positive sequence number takes that
message in. -/
theorem handleInit_of_new {s : Session} {init : SessionInit} (hseq : init.seq ≠ 0)
    (hs : s.seq = init.seq - 1) (ackSeq : UInt64) (fresh : BoxKeys) :
    s.handleInit init ackSeq fresh =
      (s.applyUpdate init fresh, some ((s.applyUpdate init fresh).makeInit ackSeq)) := by
  refine handleInit_of_lt ?_ ackSeq fresh
  rw [hs]
  grind

/-! ### Traffic -/

def withSendNonce (s : Session) (n : UInt64) : Session := { s with sendNonce := n }

def withRecvNonce (s : Session) (n : UInt64) : Session := { s with recvNonce := n }

def withNextSendNonce (s : Session) (n : UInt64) : Session := { s with nextSendNonce := n }

def withNextRecvNonce (s : Session) (n : UInt64) : Session := { s with nextRecvNonce := n }

/-- The first part of `encrypt`: count the message, and move to the next keys
when the counter wraps to zero. -/
def advanceNonce (s : Session) (fresh : BoxKeys) : Session :=
  if s.sendNonce + 1 = 0 then s.shiftKeys s.current s.next fresh 0 0
  else s.withSendNonce (s.sendNonce + 1)

/-- A send that does not exhaust the nonces changes the nonce alone. -/
theorem advanceNonce_of_ne {s : Session} {fresh : BoxKeys} (h : s.sendNonce + 1 ≠ 0) :
    s.advanceNonce fresh = s.withSendNonce (s.sendNonce + 1) :=
  if_neg h

/-- The message `encrypt` writes once the nonce is chosen. -/
def sealTraffic (s : Session) (msg : Bytes) : Bytes :=
  sessionTypeTraffic ::
    (uvarint s.localKeySeq ++ (uvarint s.remoteKeySeq ++ (uvarint s.sendNonce ++
      boxSeal s.sendShared s.sendNonce (s.nextKeys.pub.toList ++ msg))))

/-- `Session::encrypt`. -/
def encrypt (s : Session) (msg : Bytes) (fresh : BoxKeys) : Session × Bytes :=
  let s' := s.advanceNonce fresh
  (s', s'.sealTraffic msg)

/-- The header of a traffic message and its sealed body. -/
structure Traffic where
  rks : UInt64
  lks : UInt64
  nonce : UInt64
  body : Bytes

/-- The length and type checks of `decrypt` and its three uvarints. -/
def parseTraffic (msg : Bytes) : Option Traffic := do
  guard (¬ msg.length < sessionTrafficMin)
  guard (msg.head? = some sessionTypeTraffic)
  let (rks, n) ← readUvarint (msg.drop 1)
  let (lks, n') ← readUvarint (msg.drop (1 + n))
  let (nonce, n'') ← readUvarint (msg.drop (1 + n + n'))
  return { rks, lks, nonce, body := msg.drop (1 + n + n' + n'') }

/-- The secret `decrypt` opens a message with. -/
inductive Case where
  | current
  | nextSend
  | nextRecv
deriving DecidableEq

/-- The three-arm choice of `decrypt`. An arm whose key sequences match but whose
nonce is not above the arm's own counter refuses the message; the later arms are
not tried. -/
def trafficCase (s : Session) (rks lks nonce : UInt64) : Option Case :=
  if rks = s.remoteKeySeq ∧ lks + 1 = s.localKeySeq then
    if s.recvNonce < nonce then some .current else none
  else if rks = s.remoteKeySeq + 1 ∧ lks = s.localKeySeq then
    if s.nextSendNonce < nonce then some .nextSend else none
  else if rks = s.remoteKeySeq + 1 ∧ lks + 1 = s.localKeySeq then
    if s.nextRecvNonce < nonce then some .nextRecv else none
  else none

/-- The secret of an arm. -/
def sharedOf (s : Session) : Case → SalsaBox
  | .current => s.recvShared
  | .nextSend => s.nextSendShared
  | .nextRecv => s.nextRecvShared

/-- Whether `maybe_rotate` finds a rotation due: never rotated, or more than 60
seconds ago. -/
def rotationDue (s : Session) (now : Instant) : Bool :=
  match s.rotatedAt with
  | none => true
  | some t => seconds 60 < now - t

/-- `maybe_rotate` past its check. -/
def rotate (s : Session) (innerKey : Key) (nonce : UInt64) (fresh : BoxKeys) (now : Instant) :
    Session :=
  { { s with remoteKeySeq := s.remoteKeySeq + 1 }.shiftKeys s.next innerKey fresh nonce 0 with
    rotatedAt := some now }

/-- `Session::maybe_rotate`, with the outcome of its check as an argument. -/
def maybeRotate (s : Session) (due : Bool) (innerKey : Key) (nonce : UInt64) (fresh : BoxKeys)
    (now : Instant) : Session :=
  if due then s.rotate innerKey nonce fresh now else s

/-- The last `match` of `decrypt`: record the nonce in the arm's counter, and in
the two `next` arms rotate when due. -/
def accept (s : Session) (due : Bool) (case : Case) (innerKey : Key) (nonce : UInt64)
    (fresh : BoxKeys) (now : Instant) : Session :=
  match case with
  | .current => s.withRecvNonce nonce
  | .nextSend => (s.withNextSendNonce nonce).maybeRotate due innerKey nonce fresh now
  | .nextRecv => (s.withNextRecvNonce nonce).maybeRotate due innerKey nonce fresh now

/-- `decrypt` up to its state change: the arm taken, the nonce, the peer's inner
key and the payload. -/
def openTraffic (s : Session) (msg : Bytes) : Option (Case × UInt64 × Key × Bytes) := do
  let t ← parseTraffic msg
  let case ← s.trafficCase t.rks t.lks t.nonce
  let opened ← boxOpen (s.sharedOf case) t.nonce t.body
  let innerKey ← arrayOf keyLen (opened.take 32)
  return (case, t.nonce, innerKey, opened.drop 32)

/-- `decrypt` with the outcome of the rotation check as an argument. -/
def decryptDue (s : Session) (msg : Bytes) (due : Bool) (fresh : BoxKeys) (now : Instant) :
    Session × Option Bytes :=
  match s.openTraffic msg with
  | none => (s, none)
  | some (case, nonce, innerKey, payload) =>
      (s.accept due case innerKey nonce fresh now, some payload)

/-- `Session::decrypt`. -/
def decrypt (s : Session) (msg : Bytes) (fresh : BoxKeys) (now : Instant) :
    Session × Option Bytes :=
  s.decryptDue msg (s.rotationDue now) fresh now

end Session

end Roots

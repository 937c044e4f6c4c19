import Roots.Router.Path

/-!
# Roots.Router.Driver

The driver of `src/driver.rs`: registering a link, the maintenance tick, sending to an
address, and the dispatch of inbound frames.

An `Action` is one thing the owner of a router can do with it or that can happen to
its links. Actions in any order, each with any arguments, are all the runs there are:
`World.run` plays a list of them.
-/

namespace Roots

open Prog RouterM

variable [Crypto]

namespace RouterM

/-! ## Registering a link -/

/-- `write_frame` on a connection that is not in the set. -/
def writeConn (id : LinkId) (ftype : FrameType) (payload : Bytes) : RouterM Unit := do
  let taken ← writeFrame id ftype payload
  if taken then return () else fail .io

theorem writeConn_run (id : LinkId) (ftype : FrameType) (payload : Bytes) (w : World) :
    writeConn id ftype payload w =
      if w.env.writes w.tick then
        (.ok (), { w with
          tick := w.tick + 1
          events := w.events ++ [.wrote id ftype payload] })
      else (.error (.err .io), { w with tick := w.tick + 1 }) := by
  simp only [writeConn, writeFrame, draw, run_bind]
  cases w.env.writes w.tick <;> rfl

/-- The id of a new connection. -/
def mintLink : RouterM LinkId := do
  let id ← gets World.nextLink
  modify fun w => { w with nextLink := w.nextLink + 1 }
  return id

/-- The port of a key: the one it has, or the next free one. -/
def allocPort (peerKey : Key) : RouterM UInt64 := do
  let r ← router
  match r.tree.peers.lookup peerKey with
  | some p => return p.port
  | none =>
      modifyTree fun t => { t with nextPort := t.nextPort + 1 }
      return r.tree.nextPort

/-- The open request of a key: the one it has, or a new one. -/
def openReq (peerKey : Key) : RouterM SigReq := do
  let r ← router
  match r.tree.peers.lookup peerKey with
  | some p => return p.req
  | none => newReq

/-- The tables' part of `register`. -/
def enterLink (id : LinkId) (peerKey : Key) (prio : UInt8) (port order : UInt64) (req : SigReq) :
    RouterM Unit := do
  let link : LinkState := ⟨peerKey, false, unknownLatency, some 0, none, prio, order⟩
  modifyTree fun t =>
    { t with
      peers := t.peers.insert peerKey ⟨port, req⟩
      links := t.links.insert id link
      sent := t.sent.orInsert peerKey [] }
  bloomAddPeer peerKey

/-- The announces `register` replays to a key it knows. -/
def replay (id : LinkId) (peerKey : Key) : RouterM Unit := do
  let r ← router
  let keys ← iterate ((r.tree.sent.lookup peerKey).getD [])
  forEach keys fun k =>
    match r.tree.infos.lookup k with
    | none => return ()
    | some info => writeConn id .announce (info.announce k).encode

/-- Our filter for a key goes out on its new connection. -/
def sendFilter (id : LinkId) (peerKey : Key) : RouterM Unit := do
  let r ← router
  match r.bloom.send.lookup peerKey with
  | none => writeConn id .bloomFilter []
  | some b =>
      let bytes ← lift b.encode
      writeConn id .bloomFilter bytes

/-- The frames of `register` on the new connection: our filter, a request, and to a key
that was known already the announces it has been sent. -/
def greet (id : LinkId) (peerKey : Key) (req : SigReq) (known : Bool) : RouterM Unit := do
  sendFilter id peerKey
  writeConn id .sigReq req.encode
  if known then replay id peerKey else return ()

/-- `register`. -/
def register (id : LinkId) (peerKey : Key) (prio : UInt8) : RouterM Unit := do
  let r ← router
  let port ← allocPort peerKey
  modifyTree fun t => { t with peerOrder := t.peerOrder + 1 }
  let req ← openReq peerKey
  enterLink id peerKey prio port r.tree.peerOrder req
  greet id peerKey req (peerKey ∈ r.tree.peers)

/-- A new connection: registered, and then added to the set if its owner keeps it. -/
def connect (peerKey : Key) (prio : UInt8) (kept : Bool) : RouterM Unit := do
  let id ← mintLink
  register id peerKey prio
  if kept then
    let t ← now
    modify fun w => { w with links := w.links.add ⟨id, peerKey⟩ t }
  else return ()

theorem connect_eq (peerKey : Key) (prio : UInt8) (kept : Bool) (w : World) :
    connect peerKey prio kept w = (do
      register w.nextLink peerKey prio
      if kept then
        let t ← now
        modify fun w' => { w' with links := w'.links.add ⟨w.nextLink, peerKey⟩ t }
      else return () : RouterM Unit) { w with nextLink := w.nextLink + 1 } := rfl

/-- A connection that is gone: out of the set and out of the tree's books. -/
def disconnect (id : LinkId) : RouterM Unit :=
  modify fun w =>
    { w with
      links := w.links.remove id
      router.tree.links := w.router.tree.links.erase id }

/-! ## Sending to an address -/

/-- `key_for_addr`. -/
def keyForAddr (addr : Address) : RouterM (Option Key) := do
  let r ← router
  let paths ← iterate r.path.entries.keys
  let sessions ← iterate r.sess.sessions.keys
  return (paths ++ sessions).find? fun k => ownsAddr k addr

/-- `send_or_resolve`. -/
def sendOrResolve (via : LinkId) (dest : Address) (payload : Bytes) : RouterM Unit := do
  let ls ← links
  if (ls.peerOf via).isNone then fail .noLink
  else
    let key ← keyForAddr dest
    match key with
    | some k => sessionSend netSend k ⟨payload, .addressed dest⟩
    | none => holdForLookup netSend (lookupKeyForAddr dest) ⟨payload, .addressed dest⟩

/-! ## Maintenance -/

/-- The payloads of the buffers that go at a time. -/
def heldPast (bufs : Assoc Key HeldBuf) (t : Instant) : List (Key × Payload) :=
  bufs.toList.flatMap fun e => if t < e.2.deadline then [] else inHand e.1 (some e.2)

/-- `expire_ephemeral`. -/
def expireEphemeral : RouterM Unit := do
  let t ← now
  modifyPath fun p =>
    { p with
      entries := p.entries.retain fun _ e => t < e.deadline
      rumors := p.rumors.retain fun _ r => t < r.deadline }
  let r ← router
  lose (heldPast r.sess.bufs t)
  modifySess fun s =>
    { s with
      bufs := s.bufs.retain fun _ b => t < b.deadline
      sessions := s.sessions.retain fun _ e => t < e.2 + sessionTimeout }

/-- The destination of a rumor that still waits with a payload. -/
def unresolved (p : PathState) (x : Key) : Option Key :=
  match p.rumors.lookup x with
  | none => none
  | some r =>
      if r.pending.isSome ∧ ¬ p.entries.keys.any (fun k => xkey k = x) then some r.dest else none

/-- The end of `maintain`: expiry and the lookups that are due again. -/
def sweep : RouterM Unit := do
  expireEphemeral
  let r ← router
  let xs ← iterate r.path.rumors.keys
  forEach (xs.filterMap (unresolved r.path)) (rumorLookup netSend)

/-- What `maintain` does once the tree is fixed. -/
def tidy : RouterM Unit := do
  sendAnnounces
  bloomMaintenance
  sweep

/-- `maintain`. -/
def maintain : RouterM Unit := do
  expireTree
  fix
  tidy

/-! ## Inbound frames -/

/-- The arm of `dispatch_frame` for a frame type. -/
def handleFrame (conn : LinkId) (connPeer : Key) (payload : Bytes) : FrameType → RouterM Unit
  | .keepAlive | .dummy => return ()
  | .sigReq => do
      let req ← ifOk (SigReq.decode payload >>= Wire.exact)
      match req with
      | some req => handleRequest conn connPeer req
      | none => return ()
  | .sigRes => do
      let res ← ifOk (SigRes.decode payload >>= Wire.exact)
      let r ← router
      match res with
      | some res => if res.check r.pubkey connPeer then handleResponse conn connPeer res else return ()
      | none => return ()
  | .announce => do
      let ann ← ifOk (Announce.decodeExact payload)
      match ann with
      | none => return ()
      | some ann =>
          if ann.check then
            let reply ← handleAnnounce connPeer ann
            match reply with
            | some better => write conn .announce better.encode
            | none => return ()
          else return ()
  | .bloomFilter => bloomHandle connPeer payload
  | .pathLookup => do
      let lookup ← ifOk (PathLookup.decodeExact payload)
      match lookup with
      | some lookup => handleLookup netSend connPeer lookup
      | none => return ()
  | .pathNotify => do
      let notify ← ifOk (PathNotify.decodeExact payload)
      match notify with
      | some notify => if notify.check then handleNotify netSend notify else return ()
      | none => return ()
  | .pathBroken => do
      let broken ← ifOk (PathBroken.decodeExact payload)
      match broken with
      | some broken => handleBroken netSend broken
      | none => return ()
  | .traffic => do
      let tr ← ifOk (Traffic.decode payload)
      match tr with
      | some tr => handleInboundTraffic tr
      | none => return ()

/-- `dispatch_frame`. Every type but the two keepalives ends with a keepalive of our own
if the link is idle. -/
def dispatchFrame (conn : LinkId) (ftype : FrameType) (payload : Bytes) : RouterM Unit := do
  let ls ← links
  match ls.peerOf conn with
  | none => return ()
  | some connPeer =>
      handleFrame conn connPeer payload ftype
      if ftype = .keepAlive ∨ ftype = .dummy then return () else keepaliveIfIdle conn

/-! ## The outbox -/

/-- The start of `serve_links`: payloads that failed before go first. -/
def requeue : RouterM Unit :=
  modify fun w =>
    { w with
      outbox := w.router.sess.resend ++ w.outbox
      router.sess.resend := [] }

/-- The payloads of an outbox that was taken out, up to the first error. The ones after it
are dropped with the rest of the vector. -/
def sendAll : List (Key × Payload) → RouterM Unit
  | [] => return ()
  | (dest, msg) :: rest => do
      orLose rest (sessionSend netSend dest msg)
      sendAll rest

/-- The outbox loop of `serve_links`. -/
def sendOutbox : RouterM Unit := do
  let items ← gets World.outbox
  modify fun w => { w with outbox := [] }
  sendAll items

/-- `set_nodeinfo`: at most `NODEINFO_MAX` bytes. -/
def setNodeinfo (json : Bytes) : RouterM Unit :=
  if 16384 < json.length then fail .invalidLength
  else modifyRouter fun r => { r with nodeinfo := json }

end RouterM

/-! ## Runs -/

omit [Crypto] in
/-- What can happen to a router. -/
inductive Action where
  /-- A connection comes up and is registered; `kept` says whether it is added to the
  set afterwards. -/
  | connect (peer : Key) (prio : UInt8) (kept : Bool)
  /-- A connection is lost or closed. -/
  | disconnect (id : LinkId)
  /-- A frame arrives on a link. -/
  | frame (conn : LinkId) (ftype : FrameType) (payload : Bytes)
  /-- A slice in which a link was quiet. -/
  | quiet (conn : LinkId)
  | maintain
  /-- A payload is queued for a key. -/
  | enqueue (dest : Key) (payload : Bytes) (id : Nat)
  | requeue
  | sendOutbox
  | sendOrResolve (via : LinkId) (dest : Address) (payload : Bytes)
  /-- A lookup, as `resolve` makes it. -/
  | lookup (dest : Key)
  /-- A protocol request. -/
  | request (dest : Key) (payload : Bytes)
  | setNodeinfo (json : Bytes)
  /-- The owner takes the delivered payloads out of the inbox. -/
  | drainInbox
  /-- The owner takes one protocol payload out. -/
  | takeProto (idx : Nat)

/-- The method behind an action. -/
def Action.body : Action → RouterM Unit
  | .connect peer prio kept => RouterM.connect peer prio kept
  | .disconnect id => RouterM.disconnect id
  | .frame conn ftype payload => dispatchFrame conn ftype payload
  | .quiet conn => keepaliveIfIdle conn
  | .maintain => RouterM.maintain
  | .enqueue dest payload id =>
      modify fun w => { w with outbox := w.outbox ++ [(dest, ⟨payload, .traffic id⟩)] }
  | .requeue => RouterM.requeue
  | .sendOutbox => RouterM.sendOutbox
  | .sendOrResolve via dest payload => RouterM.sendOrResolve via dest payload
  | .lookup dest => rumorLookup netSend dest
  | .request dest payload => protoSend netSend dest payload
  | .setNodeinfo json => RouterM.setNodeinfo json
  | .drainInbox => modifyRouter fun r => { r with inbox := [] }
  | .takeProto idx => modifyRouter fun r => { r with protoInbox := r.protoInbox.eraseIdx idx }

namespace World

/-- The world after an action, however it ended. -/
def act (w : World) (a : Action) : World := (a.body w).2

/-- The world after a list of actions. -/
def run (w : World) (actions : List Action) : World := actions.foldl act w

@[simp]
theorem run_nil (w : World) : w.run [] = w := rfl

@[simp]
theorem run_cons (w : World) (a : Action) (actions : List Action) :
    w.run (a :: actions) = (w.act a).run actions := rfl

/-- `P` holds of every action of a run, in the world it happens in. -/
def Along (P : World → Action → Prop) : World → List Action → Prop
  | _, [] => True
  | w, a :: actions => P w a ∧ Along P (w.act a) actions

theorem run_cons_of_eq {w w' : World} {a : Action} (h : w.act a = w') (actions : List Action) :
    w.run (a :: actions) = w'.run actions := by
  rw [run_cons, h]

theorem Along.cons {P : World → Action → Prop} {w w' : World} {a : Action} {actions : List Action}
    (hP : P w a) (h : w.act a = w') (hrest : w'.Along P actions) : w.Along P (a :: actions) := by
  subst h
  exact ⟨hP, hrest⟩

theorem along_of_forall {P : World → Action → Prop} {w : World} {actions : List Action}
    (h : ∀ a ∈ actions, ∀ w, P w a) : w.Along P actions := by
  induction actions generalizing w with
  | nil => trivial
  | cons a actions ih =>
    exact ⟨h a (List.mem_cons_self ..) w, ih fun b hb => h b (List.mem_cons_of_mem _ hb)⟩

theorem along_true (w : World) (actions : List Action) : w.Along (fun _ _ => True) actions :=
  along_of_forall fun _ _ _ => trivial

theorem along_append {P : World → Action → Prop} {w : World} {as bs : List Action} :
    w.Along P (as ++ bs) ↔ w.Along P as ∧ (w.run as).Along P bs := by
  induction as generalizing w with
  | nil => exact (and_iff_right trivial).symm
  | cons a as ih => exact (and_congr_right fun _ => ih).trans and_assoc.symm

theorem run_append (w : World) (as bs : List Action) :
    w.run (as ++ bs) = (w.run as).run bs := List.foldl_append

end World

end Roots

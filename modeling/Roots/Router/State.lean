import Roots.Bloom
import Roots.Lib.Assoc
import Roots.Lib.Prog
import Roots.Session.Endpoint
import Roots.Table
import Roots.Wire.Frame
import Roots.Wire.Messages

/-!
# Roots.Router.State

The state of a router and of the links it drives (`src/router.rs`, `src/peer.rs`,
`src/link.rs` and the table types of the other modules), and the monad its methods run
in.

A method of the source takes `&mut self` and `&mut LinkSet` and returns a `Result`. It
also reads clocks, draws keys and random numbers, iterates hash maps in an order
nobody chose and writes to sockets that may fail. All of that comes from **one `Env`**,
a record of streams that a `World` carries together with the number of readings made
so far: a statement about every `World` is a statement about every behaviour of the
surroundings.

Two parts of the state are not in the source and nothing reads them: the `tag` of a
payload says how it came to the router, and `events` records what became of frames and
payloads. Counters that are only reported (`frames`, `announces_sent`, `dropped_no_link`,
the byte counts and rates of a link) are left out.
-/

namespace Roots

/-- `LinkId`: one connection. -/
abbrev LinkId := Nat

/-! ## Tables -/

/-- `PeerState`. -/
structure PeerState where
  port : UInt64
  req : SigReq

/-- `LinkState`; durations are in nanoseconds. -/
structure LinkState where
  peer : Key
  responded : Bool
  lag : Nat
  sentAt : Option Instant
  srrt : Option Instant
  prio : UInt8
  order : UInt64

/-- `Info`: an announce without its key. -/
structure Info where
  parent : Key
  res : SigRes
  sig : Signature
deriving DecidableEq

/-- `Info::announce`. -/
def Info.announce (info : Info) (key : Key) : Announce := ⟨key, info.parent, info.res, info.sig⟩

/-- The info an announce carries. -/
def Announce.info (ann : Announce) : Info := ⟨ann.parent, ann.res, ann.sig⟩

/-- `TreeState`. The sets of `sent` are lists without order. -/
structure TreeState where
  peers : Assoc Key PeerState
  links : Assoc LinkId LinkState
  infos : Assoc Key Info
  deadlines : Assoc Key Instant
  responses : Assoc Key SigRes
  sent : Assoc Key (List Key)
  nextPort : UInt64
  refresh : Bool
  doRoot1 : Bool
  doRoot2 : Bool
  selfRefreshAt : Option Instant
  peerOrder : UInt64

/-- `TreeState::default`. -/
def TreeState.init : TreeState where
  peers := ∅
  links := ∅
  infos := ∅
  deadlines := ∅
  responses := ∅
  sent := ∅
  nextPort := 1
  refresh := false
  doRoot1 := false
  doRoot2 := true
  selfRefreshAt := none
  peerOrder := 0

/-- How a payload came to the router. -/
inductive Tag where
  /-- The session layer made it. -/
  | sealed
  /-- It was queued for a key; the number tells payloads with the same bytes apart. -/
  | traffic (id : Nat)
  /-- It belongs to the protocol inside a session. -/
  | proto
  /-- It was handed to `send_or_resolve` for an address. -/
  | addressed (a : Address)
deriving DecidableEq

/-- A payload and its tag. -/
structure Payload where
  bytes : Bytes
  tag : Tag
deriving DecidableEq

/-- The address a payload was submitted for. -/
def Payload.origin (p : Payload) : Option Address :=
  match p.tag with
  | .addressed a => some a
  | _ => none

/-- The packet type a payload was submitted with. -/
def Payload.kind (p : Payload) : UInt8 :=
  match p.tag with
  | .proto => packetTypeProto
  | _ => packetTypeTraffic

/-- `PathEntry`. -/
structure PathEntry where
  path : List UInt64
  seq : UInt64
  deadline : Instant
  broken : Bool

/-- `RumorEntry`. -/
structure RumorEntry where
  dest : Key
  sendAt : Option Instant
  deadline : Instant
  pending : Option Payload
  pendingIsApp : Bool

/-- `PathState`. -/
structure PathState where
  entries : Assoc Key PathEntry
  rumors : Assoc Key RumorEntry
  notify : NotifyInfo

/-- `PathState::default`. -/
def PathState.init : PathState := ⟨∅, ∅, ⟨0, [], List.Vector.replicate 64 0⟩⟩

/-- `BloomState`. `onTree` is a `Table` of capacity 64. -/
structure BloomState where
  send : Assoc Key BloomFilter
  recv : Assoc Key BloomFilter
  onTree : Assoc Key Bool

/-- `BloomState::default`. -/
def BloomState.init : BloomState := ⟨∅, ∅, ∅⟩

/-- `Table::insert` with capacity 64: refused, with nothing written, when the key is
new and the table is full. -/
def tableInsert (t : Assoc Key Bool) (k : Key) (v : Bool) : Assoc Key Bool :=
  if k ∈ t ∨ t.entries.length < 64 then t.insert k v else t

/-- That is what a `Table` of 64 slots does to the map it holds. -/
theorem tableInsert_eq (t : Assoc Key Bool) (k : Key) (v : Bool) :
    tableInsert t k v = Table.applyMap 64 t (.insert k v) := rfl

/-! ## Links -/

/-- One entry of a `LinkSet`. -/
structure Link where
  id : LinkId
  peer : Key
deriving DecidableEq

/-- `LinkSet`. -/
structure LinkSet where
  entries : List Link
  lastWrite : Assoc LinkId Instant

namespace LinkSet

def empty : LinkSet := ⟨[], ∅⟩

def ids (links : LinkSet) : List LinkId := links.entries.map Link.id

/-- `LinkSet::peers`: each key once, in first-seen order. -/
def peers (links : LinkSet) : List Key :=
  links.entries.foldl (fun out e => if e.peer ∈ out then out else out ++ [e.peer]) []

/-- `LinkSet::links_to`. -/
def linksTo (links : LinkSet) (peer : Key) : List LinkId :=
  (links.entries.filter fun e => e.peer = peer).map Link.id

/-- `LinkSet::peer_of`. -/
def peerOf (links : LinkSet) (id : LinkId) : Option Key :=
  (links.entries.find? fun e => e.id = id).map Link.peer

/-- `LinkSet::has_peer`. -/
def hasPeer (links : LinkSet) (peer : Key) : Bool := links.entries.any fun e => e.peer = peer

/-- `LinkSet::remove`; the send clock of the link stays. -/
def remove (links : LinkSet) (id : LinkId) : LinkSet :=
  { links with entries := links.entries.eraseP fun e => e.id = id }

/-- `LinkSet::add`. -/
def add (links : LinkSet) (link : Link) (now : Instant) : LinkSet where
  entries := links.entries ++ [link]
  lastWrite := links.lastWrite.orInsert link.id now

/-- `LinkSet::idle_for`. -/
def idleFor (links : LinkSet) (id : LinkId) (now : Instant) : Nat :=
  match links.lastWrite.lookup id with
  | some t => now - t
  | none => 0

theorem mem_ids {links : LinkSet} {id : LinkId} :
    id ∈ links.ids ↔ ∃ e ∈ links.entries, e.id = id := List.mem_map

theorem peerOf_isSome {links : LinkSet} {id : LinkId} :
    (links.peerOf id).isSome ↔ id ∈ links.ids := by
  rw [peerOf, Option.isSome_map, List.find?_isSome, mem_ids]
  simp

theorem isNone_peerOf {links : LinkSet} {id : LinkId} (h : id ∈ links.ids) :
    (links.peerOf id).isNone = false :=
  Option.isNone_eq_false_iff.mpr (peerOf_isSome.mpr h)

theorem mem_ids_of_mem_linksTo {links : LinkSet} {peer : Key} {id : LinkId}
    (h : id ∈ links.linksTo peer) : id ∈ links.ids := by
  obtain ⟨e, he, rfl⟩ := List.mem_map.mp h
  exact List.mem_map_of_mem (List.mem_of_mem_filter he)

theorem exists_of_peerOf {links : LinkSet} {id : LinkId} {peer : Key}
    (h : links.peerOf id = some peer) : ∃ e ∈ links.entries, e.id = id ∧ e.peer = peer := by
  obtain ⟨e, hfind, hpeer⟩ := Option.map_eq_some_iff.mp h
  exact ⟨e, List.mem_of_find?_eq_some hfind, by simpa using List.find?_some hfind, hpeer⟩

theorem ids_remove (links : LinkSet) (id : LinkId) :
    (links.remove id).ids = links.ids.erase id := by
  obtain ⟨entries, lastWrite⟩ := links
  show (entries.eraseP fun e => e.id = id).map Link.id = (entries.map Link.id).erase id
  induction entries with
  | nil => rfl
  | cons e entries ih =>
    by_cases h : e.id = id
    · rw [List.eraseP_cons_of_pos (by simpa using h), List.map_cons, h, List.erase_cons_head]
    · rw [List.eraseP_cons_of_neg (by simpa using h), List.map_cons, List.map_cons, ih,
        List.erase_cons_tail (by simpa using h)]

theorem ids_remove_subset (links : LinkSet) (id : LinkId) :
    (links.remove id).ids ⊆ links.ids := by
  rw [ids_remove]
  exact List.erase_subset

theorem mem_linksTo {links : LinkSet} {peer : Key} {id : LinkId} :
    id ∈ links.linksTo peer ↔ ⟨id, peer⟩ ∈ links.entries := by
  simp only [linksTo, List.mem_map, List.mem_filter, decide_eq_true_eq]
  constructor
  · rintro ⟨e, ⟨he, rfl⟩, rfl⟩
    exact he
  · exact fun h => ⟨_, ⟨h, rfl⟩, rfl⟩

theorem hasPeer_iff {links : LinkSet} {k : Key} :
    links.hasPeer k = true ↔ ∃ e ∈ links.entries, e.peer = k := by
  simp [hasPeer]

theorem linksTo_ne_nil {links : LinkSet} {peer : Key} :
    links.linksTo peer ≠ [] ↔ links.hasPeer peer = true := by
  simp [hasPeer, linksTo]

theorem peerOf_of_mem {links : LinkSet} (hnodup : links.ids.Nodup) {e : Link}
    (he : e ∈ links.entries) : links.peerOf e.id = some e.peer := by
  obtain ⟨e', he'⟩ := Option.isSome_iff_exists.mp
    (List.find?_isSome (p := fun x : Link => decide (x.id = e.id)) |>.mpr ⟨e, he, by simp⟩)
  have hid : e'.id = e.id := by simpa using List.find?_some he'
  have heq : e' = e := List.inj_on_of_nodup_map hnodup (List.mem_of_find?_eq_some he') he hid
  rw [peerOf, he', heq]
  rfl

theorem mem_foldl_peers (entries : List Link) (out : List Key) (k : Key) :
    k ∈ entries.foldl (fun out e => if e.peer ∈ out then out else out ++ [e.peer]) out ↔
      k ∈ out ∨ ∃ e ∈ entries, e.peer = k := by
  induction entries generalizing out with
  | nil => simp
  | cons e entries ih =>
    rw [List.foldl_cons, ih]
    have hcons : (∃ e' ∈ e :: entries, e'.peer = k) ↔ e.peer = k ∨ ∃ e' ∈ entries, e'.peer = k := by
      simp
    rw [hcons]
    split_ifs with hmem
    · constructor
      · rintro (h | h)
        · exact .inl h
        · exact .inr (.inr h)
      · rintro (h | rfl | h)
        · exact .inl h
        · exact .inl hmem
        · exact .inr h
    · rw [List.mem_append, List.mem_singleton, or_assoc, eq_comm]

theorem mem_peers {links : LinkSet} {k : Key} :
    k ∈ links.peers ↔ ∃ e ∈ links.entries, e.peer = k := by
  rw [peers, mem_foldl_peers]
  simp

theorem nodup_peers (links : LinkSet) : links.peers.Nodup := by
  have hfold : ∀ (entries : List Link) (out : List Key), out.Nodup →
      (entries.foldl (fun out e => if e.peer ∈ out then out else out ++ [e.peer]) out).Nodup := by
    intro entries
    induction entries with
    | nil => exact fun _ h => h
    | cons e entries ih =>
      intro out h
      refine ih _ ?_
      dsimp only
      split
      · exact h
      · exact h.append (List.nodup_singleton _) (by simpa using ‹_›)
  exact hfold links.entries [] List.nodup_nil

theorem ids_congr {links links' : LinkSet} (h : links'.entries = links.entries) :
    links'.ids = links.ids := by
  rw [ids, h, ids]

theorem linksTo_congr {links links' : LinkSet} (h : links'.entries = links.entries) (peer : Key) :
    links'.linksTo peer = links.linksTo peer := by
  rw [linksTo, h, linksTo]

/-- A link has one peer. -/
theorem peer_unique {links : LinkSet} (hnodup : links.ids.Nodup) {p q : Key} {id : LinkId}
    (hp : id ∈ links.linksTo p) (hq : id ∈ links.linksTo q) : p = q :=
  congrArg Link.peer
    (List.inj_on_of_nodup_map hnodup (mem_linksTo.mp hp) (mem_linksTo.mp hq) rfl)

/-- Ids are unique, so taking one out leaves all the others. -/
theorem entries_remove {links : LinkSet} (h : links.ids.Nodup) (id : LinkId) :
    (links.remove id).entries = links.entries.filter fun e => e.id ≠ id := by
  obtain ⟨entries, lastWrite⟩ := links
  show entries.eraseP _ = _
  change (entries.map Link.id).Nodup at h
  induction entries with
  | nil => rfl
  | cons e entries ih =>
    obtain ⟨hnew, hrest⟩ := List.nodup_cons.mp h
    by_cases heq : e.id = id
    · rw [List.eraseP_cons_of_pos (by simpa using heq), List.filter_cons_of_neg (by simpa using heq)]
      refine (List.filter_eq_self.mpr fun e' he' => decide_eq_true ?_).symm
      exact fun heq' => hnew (heq ▸ heq' ▸ List.mem_map_of_mem he')
    · rw [List.eraseP_cons_of_neg (by simpa using heq), List.filter_cons_of_pos (by simpa using heq),
        ih hrest]

theorem mem_linksTo_remove {links : LinkSet} (h : links.ids.Nodup) {id id' : LinkId} {peer : Key} :
    id' ∈ (links.remove id).linksTo peer ↔ id' ∈ links.linksTo peer ∧ id' ≠ id := by
  rw [mem_linksTo, entries_remove h, List.mem_filter, mem_linksTo]
  simp

theorem ids_add (links : LinkSet) (link : Link) (now : Instant) :
    (links.add link now).ids = links.ids ++ [link.id] := List.map_append

end LinkSet

/-! ## The router -/

variable [Crypto]

/-- A `SessionBuf` with its deadline; `tag` belongs to the payload it holds. -/
structure HeldBuf where
  buf : SessionBuf
  tag : Tag
  deadline : Instant

/-- The packet type and the payload a buffer holds. -/
def HeldBuf.data (held : HeldBuf) : Option (UInt8 × Payload) :=
  held.buf.data.map fun (kind, bytes) => (kind, ⟨bytes, held.tag⟩)

/-- `SessionState`. -/
structure SessionState where
  sessions : Assoc Key (Session × Instant)
  bufs : Assoc Key HeldBuf
  initSeq : UInt64
  resend : List (Key × Payload)

/-- `SessionState::default`. -/
def SessionState.init : SessionState := ⟨∅, ∅, 0, []⟩

/-- `Router`: the tables of one node. The signing key is its seed, and the public key
belongs to it. -/
structure Router where
  key : Key
  pubkey : Key
  tree : TreeState
  path : PathState
  bloom : BloomState
  sess : SessionState
  nodeinfo : Bytes
  inbox : List (Key × Bytes)
  protoInbox : List (Key × Bytes)
  pubkey_eq : pubkey = Crypto.verifyingKey key

/-- `Router::new`; the nodeinfo starts as an empty JSON object. -/
def Router.init (seed : Key) : Router where
  key := seed
  pubkey := Crypto.verifyingKey seed
  tree := .init
  path := .init
  bloom := .init
  sess := .init
  nodeinfo := [0x7b, 0x7d]
  inbox := []
  protoInbox := []
  pubkey_eq := rfl

/-! ## Surroundings -/

omit [Crypto] in
/-- An order in which a hash map or hash set is iterated. -/
structure Reorder where
  run : List Key → List Key
  perm : ∀ keys, (run keys).Perm keys

omit [Crypto] in
/-- What `read_frame` on a link within a slice ends with. -/
inductive Read where
  | frame (ftype : FrameType) (payload : Bytes)
  | failed (e : Error)
  /-- The slice was over first. -/
  | quiet

/-- The surroundings: what the readings return, by their number. `writes` says which
frames a socket takes, `reads` what comes in on a link. -/
structure Env where
  now : Nat → Instant
  unixNow : Nat → UInt64
  boxKey : Nat → Key
  random : Nat → UInt64
  writes : Nat → Bool
  reads : Nat → Read
  order : Nat → Reorder

/-- Even surroundings: the clock advances by `pause` from one reading to the next, every
write succeeds, nothing comes in, and maps are iterated as they are. -/
def Env.even (pause : Nat) : Env where
  now n := n * pause
  unixNow _ := 1000
  boxKey n := ⟨List.replicate 31 0 ++ [UInt8.ofNat (n % 200 + 20)], rfl⟩
  random n := UInt64.ofNat n
  writes _ := true
  reads _ := .quiet
  order _ := ⟨id, fun _ => .refl _⟩

/-- Even surroundings in which the write that the `n`-th reading decides is refused. -/
def Env.refusing (n : Nat) : Env := { Env.even 1 with writes := fun m => m ≠ n }

/-- What happened, for the record. -/
inductive Event where
  /-- A socket took a frame. -/
  | wrote (id : LinkId) (ftype : FrameType) (payload : Bytes)
  /-- `session_send` was called. -/
  | passed (dest : Key) (payload : Payload)
  /-- A session was given a plaintext to seal, for the payload. -/
  | sealed (dest : Key) (plain : Bytes) (payload : Payload)
  /-- `net_send` took that message without an error. -/
  | carried (dest : Key) (payload : Payload)
  /-- Another payload took its place behind an init. -/
  | displaced (dest : Key) (payload : Payload)
  /-- It was let go without having been sent. -/
  | lost (dest : Key) (payload : Payload)
  /-- `pathfinder_send` put a sealed message into the rumor of `dest`, which was marked as
  an application's or not. -/
  | stashed (dest : Key) (onApp : Bool)
  /-- A notify from `source` took a payload out of its rumor. -/
  | released (source : Key) (payload : Payload) (isApp : Bool)
  /-- A session payload went to the inbox. -/
  | delivered (src : Key) (payload : Bytes)

/-- A router, its links and their surroundings. `outbox` is the queue of payloads its
owner hands to `serve`, and `nextLink` the counter link ids are minted from. -/
structure World where
  router : Router
  links : LinkSet
  outbox : List (Key × Payload)
  nextLink : LinkId
  env : Env
  tick : Nat
  events : List Event

/-- A fresh router without links. -/
def World.init (seed : Key) (env : Env) : World := ⟨.init seed, .empty, [], 0, env, 0, []⟩

/-- The methods of the router. -/
abbrev RouterM := Prog World Exit

namespace RouterM

open Prog

variable {α : Type}

/-- `Err(e)?`. -/
def fail (e : Error) : RouterM α := exit (.err e)

/-- A decoder or encoder inside a method, with `?`. -/
def lift (r : Except Exit α) : RouterM α := fun w => (r, w)

/-- `if let Ok(x) = decode(..)`: a refusal is passed over, an abort is not. -/
def ifOk (r : Except Exit α) : RouterM (Option α) :=
  match r with
  | .ok a => pure (some a)
  | .error (.err _) => pure none
  | .error e => exit e

/-- `let sent = f().await;`: an `Err` is a value, an abort is not. -/
def result (m : RouterM α) : RouterM (Except Exit α) :=
  attempt (fun e => !(e matches .err _)) m

theorem result_ok {m : RouterM α} {w w' : World} {a : α} (h : m w = (.ok a, w')) :
    result m w = (.ok (.ok a), w') := by
  rw [result, attempt, h]

theorem result_err {m : RouterM α} {w w' : World} {e : Error} (h : m w = (.error (.err e), w')) :
    result m w = (.ok (.error (.err e)), w') := by
  rw [result, attempt, h]
  rfl

/-- An abort is no value. -/
theorem result_abort {m : RouterM α} {w w' : World} {e : Exit} (h : m w = (.error e, w'))
    (habort : e.aborts = true) : result m w = (.error e, w') := by
  rw [result, attempt, h]
  cases e with
  | err e => cases habort
  | panic | stuck => rfl

/-- One reading of the surroundings. -/
def draw (f : Env → Nat → α) : RouterM α := fun w =>
  (.ok (f w.env w.tick), { w with tick := w.tick + 1 })

theorem draw_bind {β : Type} (f : Env → Nat → α) (g : α → RouterM β) (w : World) :
    (draw f >>= g) w = g (f w.env w.tick) { w with tick := w.tick + 1 } := rfl

/-- `Instant::now()`. -/
def now : RouterM Instant := draw Env.now

/-- `unix_now()`. -/
def unixNow : RouterM UInt64 := draw Env.unixNow

/-- `fresh_box()`. -/
def fresh : RouterM BoxKeys := draw fun env n => freshBox (env.boxKey n)

/-- The keys of a hash map or set, in the order it is iterated. -/
def iterate (keys : List Key) : RouterM (List Key) := draw fun env n => (env.order n).run keys

def router : RouterM Router := gets World.router

def links : RouterM LinkSet := gets World.links

def modifyRouter (f : Router → Router) : RouterM Unit :=
  modify fun w => { w with router := f w.router }

def modifyTree (f : TreeState → TreeState) : RouterM Unit :=
  modify fun w => { w with router.tree := f w.router.tree }

def modifyPath (f : PathState → PathState) : RouterM Unit :=
  modify fun w => { w with router.path := f w.router.path }

def modifyBloom (f : BloomState → BloomState) : RouterM Unit :=
  modify fun w => { w with router.bloom := f w.router.bloom }

def modifySess (f : SessionState → SessionState) : RouterM Unit :=
  modify fun w => { w with router.sess := f w.router.sess }

def record (e : Event) : RouterM Unit := modify fun w => { w with events := w.events ++ [e] }

/-- Payloads are let go. -/
def lose (items : List (Key × Payload)) : RouterM Unit :=
  modify fun w => { w with events := w.events ++ items.map fun x => .lost x.1 x.2 }

/-- A call on whose `Err` the caller returns and lets go of what it has in hand. -/
def orLose (items : List (Key × Payload)) (m : RouterM Unit) : RouterM Unit := do
  let done ← result m
  match done with
  | .ok _ => return ()
  | .error e =>
      lose items
      exit e

theorem orLose_ok {items : List (Key × Payload)} {m : RouterM Unit} {w w' : World}
    (h : m w = (.ok (), w')) : orLose items m w = (.ok (), w') := by
  rw [orLose, run_bind_ok (result_ok h)]
  rfl

/-! ## Writing frames -/

/-- `write_frame` of a link: the socket takes the frame, or fails with an I/O error. -/
def writeFrame (id : LinkId) (ftype : FrameType) (payload : Bytes) : RouterM Bool := do
  let taken ← draw Env.writes
  if taken then
    record (.wrote id ftype payload)
    return true
  else return false

/-- `LinkSet::send`: `false` if there is no such link. A link that refuses a frame is
retired. -/
def send (target : LinkId) (ftype : FrameType) (payload : Bytes) : RouterM Bool := do
  let ls ← links
  if (ls.peerOf target).isNone then return false
  let taken ← writeFrame target ftype payload
  if taken then
    let t ← now
    modify fun w => { w with links.lastWrite := w.links.lastWrite.insert target t }
    return true
  else
    modify fun w => { w with links := w.links.remove target }
    fail .io

/-- `LinkSet::write`. -/
def write (target : LinkId) (ftype : FrameType) (payload : Bytes) : RouterM Unit := do
  let sent ← send target ftype payload
  if sent then return () else fail .noLink

/-- `LinkSet::write_all`. -/
def writeAll (peer : Key) (ftype : FrameType) (payload : Bytes) : RouterM Unit := do
  let ls ← links
  let targets := ls.linksTo peer
  if targets.isEmpty then fail .noLink
  else forEach targets fun id => write id ftype payload

/-- `Router::write_via`: a next hop without a link is a drop, not an error. -/
def writeVia (next : LinkId) (ftype : FrameType) (payload : Bytes) : RouterM Unit := do
  let ls ← links
  if (ls.peerOf next).isNone then return ()
  else
    let _ ← send next ftype payload
    return ()

/-- `Router::keepalive_if_idle`. -/
def keepaliveIfIdle (conn : LinkId) : RouterM Unit := do
  let ls ← links
  let t ← now
  if keepaliveDelay ≤ ls.idleFor conn t then write conn .keepAlive [] else return ()

end RouterM

end Roots

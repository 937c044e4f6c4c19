import Roots.Router.Tree

/-!
# Roots.Router.Forward

Choosing where a packet goes: the greedy next hop in tree coordinates
(`greedy_next` of `src/pathfind.rs`) and the bloom table with its multicast
(`src/bloom.rs`).
-/

namespace Roots

open Prog RouterM

/-! ## Greedy forwarding -/

/-- `coords_dist`. -/
def coordsDist (destPath keyPath : List UInt64) : UInt64 :=
  let common := ((destPath.zip keyPath).takeWhile fun p => p.1 = p.2).length
  UInt64.ofNat (keyPath.length + destPath.length - 2 * common)

/-- The best candidate of the second pass of `greedy_next`. -/
structure Hop where
  id : LinkId
  link : LinkState
  cost : UInt64
  dist : UInt64

namespace TreeState

/-- The `take` of the second pass: same node and lower priority, then the product of
cost and distance, then distance, then cost, then age. -/
def betterHop (best new : Hop) : Bool :=
  if new.link.peer = best.link.peer then new.link.prio < best.link.prio
  else if satMul new.cost new.dist < satMul best.cost best.dist then true
  else if satMul best.cost best.dist < satMul new.cost new.dist then false
  else if new.dist < best.dist then true
  else if best.dist < new.dist then false
  else if new.cost < best.cost then true
  else if best.cost < new.cost then false
  else new.link.order < best.link.order

/-- One round of the second pass. -/
def takeHop (t : TreeState) (path : List UInt64) (best : Option Hop) (id : LinkId) : Option Hop :=
  match t.links.lookup id with
  | none => best
  | some l =>
      let hop : Hop :=
        ⟨id, l, t.linkCost id, coordsDist path ((rootPathFor t.infos l.peer).getD [])⟩
      match best with
      | none => some hop
      | some b => if betterHop b hop then some hop else best

/-- The links of the nodes that are strictly closer than `dist`, in key order. -/
def closer (t : TreeState) (links : LinkSet) (path : List UInt64) (dist : UInt64) : List LinkId :=
  (sortKeys links.peers).flatMap fun k =>
    match rootPathFor t.infos k with
    | some kp => if coordsDist path kp < dist then links.linksTo k else []
    | none => []

/-- Both passes of `greedy_next` from the distance this node has. -/
def nextHop (t : TreeState) (links : LinkSet) (path : List UInt64) (dist : UInt64) :
    Option LinkId :=
  ((t.closer links path dist).foldl (t.takeHop path) none).map Hop.id

/-- `greedy_next`: the next link and the watermark afterwards. -/
def greedyNext (t : TreeState) (links : LinkSet) (pubkey : Key) (path : List UInt64)
    (watermark : UInt64) : Option LinkId × UInt64 :=
  match rootPathFor t.infos pubkey with
  | none => (t.nextHop links path maxU64, watermark)
  | some sp =>
      let d := coordsDist path sp
      if d < watermark then (t.nextHop links path d, d) else (none, watermark)

end TreeState

variable [Crypto]

/-- `root_path().unwrap_or_default()`. -/
def Router.coords (r : Router) : List UInt64 :=
  (TreeState.rootPathFor r.tree.infos r.pubkey).getD []

namespace RouterM

/-- `greedy_next` on the router and its links. -/
def greedy (path : List UInt64) (watermark : UInt64) : RouterM (Option LinkId × UInt64) :=
  gets fun w => w.router.tree.greedyNext w.links w.router.pubkey path watermark

/-! ## The bloom table -/

/-- `bloom_add_peer`. A full table is ignored. -/
def bloomAddPeer (peer : Key) : RouterM Unit :=
  modifyBloom fun b =>
    { send := b.send.orInsert peer .empty
      recv := b.recv.orInsert peer .empty
      onTree := if peer ∈ b.onTree then b.onTree else tableInsert b.onTree peer false }

end RouterM

namespace Router

/-- Whether a peer is on the tree: our parent, or a node whose parent we are. -/
def isOnTree (r : Router) (selfParent pk : Key) : Bool :=
  selfParent = pk ∨ (r.tree.infos.lookup pk).any fun i => i.parent = r.pubkey

/-- One round of `bloom_fix`: a peer that left the tree gets a blank filter. -/
def fixPeer (r : Router) (selfParent : Key) (b : BloomState) (pk : Key) : BloomState :=
  let on := r.isOnTree selfParent pk
  let was := (b.onTree.lookup pk).getD false
  { b with
    onTree := tableInsert b.onTree pk on
    send := if was ∧ ¬ on then b.send.insert pk .empty else b.send }

/-- `bloom_fix`. -/
def bloomFix (r : Router) : BloomState :=
  match r.tree.infos.lookup r.pubkey with
  | none => r.bloom
  | some i => r.bloom.onTree.keys.foldl (r.fixPeer i.parent) r.bloom

/-- The keys that are on the tree. -/
def treePeers (r : Router) : List Key :=
  (r.bloom.onTree.toList.filter Prod.snd).map Prod.fst

/-- `bloom_for`. -/
def bloomFor (r : Router) (peer : Key) : BloomFilter :=
  let own := BloomFilter.empty.add (xkey r.pubkey).toList
  let heard := (sortKeys (r.treePeers.filter (· ≠ peer))).foldl (fun b k =>
    match r.bloom.recv.lookup k with
    | some f => b.merge f
    | none => b) own
  match r.bloom.send.lookup peer with
  | some s => heard.merge s
  | none => heard

end Router

namespace RouterM

/-- One peer of `bloom_maintenance`. -/
def advertise (pk : Key) : RouterM Unit := do
  let r ← router
  let b := r.bloomFor pk
  if r.bloom.send.lookup pk = some b then return ()
  else
    modifyBloom fun s => { s with send := s.send.insert pk b }
    let bytes ← lift b.encode
    let ls ← links
    if (ls.linksTo pk).isEmpty then return () else writeAll pk .bloomFilter bytes

/-- `bloom_maintenance`. -/
def bloomMaintenance : RouterM Unit := do
  modify fun w => { w with router.bloom := w.router.bloomFix }
  let r ← router
  let peers ← iterate r.treePeers
  forEach peers advertise

/-- `bloom_handle`; its caller ignores the result. -/
def bloomHandle (src : Key) (payload : Bytes) : RouterM Unit := do
  let b ← ifOk (BloomFilter.decodeExact payload)
  match b with
  | none => return ()
  | some b =>
      modifyBloom fun s =>
        { s with recv := if src ∈ s.recv then s.recv.insert src b else s.recv }

omit [Crypto] in
/-- The fold of `min_by_key` in `best_link` over links whose state is known: the first
one with the least `(prio, order)`. -/
def oldest (best : LinkId × LinkState) (rest : List (LinkId × LinkState)) : LinkId :=
  (rest.foldl (fun b n =>
    if n.2.prio < b.2.prio ∨ (n.2.prio = b.2.prio ∧ n.2.order < b.2.order) then n else b) best).1

/-- The `&self.tree.links[id]` of `best_link`: a link without a state aborts. -/
def linkStates (t : TreeState) : List LinkId → Except Exit (List (LinkId × LinkState))
  | [] => .ok []
  | id :: ids =>
      match t.links.lookup id with
      | none => .error .panic
      | some l => do
          let rest ← linkStates t ids
          return (id, l) :: rest

/-- `best_link`. -/
def bestLink (key : Key) : RouterM (Option LinkId) := do
  let r ← router
  let ls ← links
  let states ← lift (linkStates r.tree (ls.linksTo key))
  match states with
  | [] => return none
  | s :: rest => return some (oldest s rest)

/-- One key of `multicast`. -/
def multicastTo (srcKey x : Key) (ftype : FrameType) (payload : Bytes) (k : Key) :
    RouterM Unit := do
  let r ← router
  let interested := (r.bloom.recv.lookup k).any fun f => f.test x.toList
  if k = srcKey ∨ ¬ interested then return ()
  else
    let best ← bestLink k
    match best with
    | none => return ()
    | some id => writeVia id ftype payload

/-- `multicast`. -/
def multicast (srcKey toKey : Key) (ftype : FrameType) (payload : Bytes) : RouterM Unit := do
  let r ← router
  forEach (sortKeys r.treePeers) (multicastTo srcKey (xkey toKey) ftype payload)

end RouterM

end Roots

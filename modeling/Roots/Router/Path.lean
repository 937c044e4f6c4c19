import Roots.Router.Session

/-!
# Roots.Router.Path

The pathfinder of `src/pathfind.rs` and the handling of inbound traffic in
`src/traffic.rs`: lookups, notifies and broken-path reports, the rumors that wait for a
notify with one payload each, and `pathfinder_send`, which is `net_send`.

`pathfinder_send` is recursive: without a path it looks the key up, a lookup for this
node's own transformed key is answered by this node, and the answer sends the payload
that waited. `netSend` unfolds the recursion to a given depth. **Depth two is enough**
(`Roots.Router.Rules`): an accepted notify leaves a working path to its source behind,
so the send it triggers does not look anything up.
-/

namespace Roots

open Prog RouterM

/-- `PATH_TIMEOUT`. -/
def pathTimeout : Nat := seconds 60

/-- `PATH_THROTTLE`. -/
def pathThrottle : Nat := seconds 1

/-! ## The table -/

namespace PathState

/-- What an accepted notify leaves behind. -/
def learn (p : PathState) (notify : PathNotify) (t : Instant) : PathState :=
  let entry : PathEntry := ⟨notify.info.path, notify.info.seq, t + pathTimeout, false⟩
  { p with entries := p.entries.insert notify.source entry }

/-- Change an entry. -/
def modifyEntry (p : PathState) (k : Key) (f : PathEntry → PathEntry) : PathState :=
  { p with entries := p.entries.modify k f }

/-- Change a rumor. -/
def modifyRumor (p : PathState) (x : Key) (f : RumorEntry → RumorEntry) : PathState :=
  { p with rumors := p.rumors.modify x f }

/-- `rumors.entry(x).or_insert(..)`. -/
def openRumor (p : PathState) (dest : Key) (t : Instant) : PathState :=
  let rumor : RumorEntry := ⟨dest, none, t + pathTimeout, none, false⟩
  { p with rumors := p.rumors.orInsert (xkey dest) rumor }

/-- The payload that waits for a notify from `source`, and whether it is an
application's. -/
def heldFor (p : PathState) (source : Key) : Option (Payload × Bool) := do
  let r ← p.rumors.lookup (xkey source)
  let payload ← r.pending
  return (payload, r.pendingIsApp)

/-- `r.pending.take()`. -/
def takeHeld (p : PathState) (source : Key) : PathState :=
  p.modifyRumor (xkey source) fun r => { r with pending := none }

/-- Whether the last lookup for a transformed key is too recent for another one. -/
def throttled (p : PathState) (x : Key) (t : Instant) : Bool :=
  ((p.rumors.lookup x).bind RumorEntry.sendAt).any fun s => t - s < pathThrottle

/-- The path `pathfinder_send` attaches. -/
def workingPath (p : PathState) (dest : Key) : Option (List UInt64) :=
  ((p.entries.lookup dest).filter fun e => !e.broken).map PathEntry.path

/-- Whether a notify is news: newer than the entry of its source and for another path,
or from a source that a rumor waits for. The signature is checked last. -/
def isNews [Crypto] (p : PathState) (notify : PathNotify) : Bool :=
  (match p.entries.lookup notify.source with
  | some e => e.seq < notify.info.seq ∧ notify.info.path ≠ e.path
  | none => xkey notify.source ∈ p.rumors) && notify.check

end PathState

variable [Crypto]

namespace RouterM

/-! ## Notifies -/

/-- The end of `handle_notify`: send the payload that waited. An application's goes out
through the session layer, a sealed one as it is. -/
def flush (netSend : NetSend) (source : Key) : RouterM Unit := do
  let r ← router
  match r.path.heldFor source with
  | none => return ()
  | some (payload, isApp) =>
      modify fun w =>
        { w with
          router.path := w.router.path.takeHeld source
          events := w.events ++ [.released source payload isApp] }
      if isApp then sessionSend netSend source payload else netSend source payload.bytes

/-- A notify this node is the destination of. -/
def acceptNotify (netSend : NetSend) (notify : PathNotify) : RouterM Unit := do
  let r ← router
  if r.path.isNews notify then
    let t ← now
    modifyPath fun p => p.learn notify t
    flush netSend notify.source
  else return ()

/-- `handle_notify`. -/
def handleNotify (netSend : NetSend) (notify : PathNotify) : RouterM Unit := do
  let (next, watermark) ← greedy notify.path notify.watermark
  match next with
  | some id => writeVia id .pathNotify { notify with watermark }.encode
  | none =>
      let r ← router
      if notify.dest ≠ r.pubkey then return () else acceptNotify netSend notify

/-! ## Lookups -/

/-- The info `handle_lookup` answers with: the one it signed before if nothing has
changed. -/
def ownNotify (r : Router) (t : UInt64) : NotifyInfo :=
  if t ≠ r.path.notify.seq ∨ r.coords ≠ r.path.notify.path then
    NotifyInfo.signed r.key t r.coords
  else r.path.notify

/-- `handle_lookup`: multicast onwards, then answer on a match. -/
def handleLookup (netSend : NetSend) (src : Key) (lookup : PathLookup) : RouterM Unit := do
  multicast src lookup.dest .pathLookup lookup.encode
  let r ← router
  if xkey lookup.dest ≠ xkey r.pubkey then return ()
  else
    let t ← unixNow
    let info := ownNotify r t
    modifyPath fun p => { p with notify := info }
    handleNotify netSend
      { path := lookup.from, watermark := maxU64, source := r.pubkey, dest := lookup.source, info }

/-- `send_lookup`. -/
def sendLookup (netSend : NetSend) (dest : Key) : RouterM Unit := do
  let r ← router
  handleLookup netSend r.pubkey { source := r.pubkey, dest, «from» := r.coords }

/-! ## Rumors -/

/-- `rumor_lookup`. -/
def rumorLookup (netSend : NetSend) (dest : Key) : RouterM Unit := do
  let t ← now
  let r ← router
  if r.path.throttled (xkey dest) t then return ()
  else
    modifyPath fun p => (p.openRumor dest t).modifyRumor (xkey dest) fun e =>
      { e with sendAt := some t, deadline := t + pathTimeout }
    sendLookup netSend dest

/-- `hold_for_lookup`. -/
def holdForLookup (netSend : NetSend) (dest : Key) (payload : Payload) : RouterM Unit := do
  let t ← now
  let r ← router
  modifyPath fun p => (p.openRumor dest t).modifyRumor (xkey dest) fun e =>
    { e with pending := some payload, pendingIsApp := true }
  if r.path.throttled (xkey dest) t then return () else rumorLookup netSend dest

/-! ## Broken paths -/

/-- A broken-path report about a path of this node. -/
def markBroken (netSend : NetSend) (dest : Key) : RouterM Unit := do
  let r ← router
  if dest ∈ r.path.entries then
    modifyPath fun p => p.modifyEntry dest fun e => { e with broken := true }
    rumorLookup netSend dest
  else return ()

/-- `handle_broken`. -/
def handleBroken (netSend : NetSend) (broken : PathBroken) : RouterM Unit := do
  let (next, watermark) ← greedy broken.path broken.watermark
  match next with
  | some id => writeVia id .pathBroken { broken with watermark }.encode
  | none =>
      let r ← router
      if broken.source ≠ r.pubkey then return () else markBroken netSend broken.dest

/-! ## Traffic -/

/-- Send a packet one hop on its way, if there is a next hop. -/
def forward (tr : Traffic) : RouterM Bool := do
  let (next, watermark) ← greedy tr.path tr.watermark
  match next with
  | none => return false
  | some id =>
      let buf ← lift { tr with watermark }.encode
      writeVia id .traffic buf
      return true

/-- `route_traffic` for a packet of this node. -/
def routeTraffic (dest : Key) (path : List UInt64) (payload : Bytes) : RouterM Unit := do
  let r ← router
  let _ ← forward
    { path, «from» := r.coords, source := r.pubkey, dest, watermark := maxU64, payload }
  return ()

/-- A sealed message waits in the rumor of its destination. **The mark of the rumor stays as
it is.** -/
def stash (dest : Key) (payload : Bytes) : RouterM Unit :=
  modify fun w =>
    { w with
      router.path := w.router.path.modifyRumor (xkey dest) fun e =>
        { e with pending := some ⟨payload, .sealed⟩ }
      events := w.events ++
        [.stashed dest ((w.router.path.rumors.lookup (xkey dest)).any RumorEntry.pendingIsApp)] }

/-- `pathfinder_send`: attach the learned path, or wait behind a lookup. -/
def pathfinderSend (netSend : NetSend) (dest : Key) (payload : Bytes) : RouterM Unit := do
  let r ← router
  match r.path.workingPath dest with
  | some path => routeTraffic dest path payload
  | none =>
      rumorLookup netSend dest
      stash dest payload

/-- `net_send`, with the recursion cut off at a depth. -/
def netSendDepth : Nat → NetSend
  | 0 => fun _ _ => exit .stuck
  | n + 1 => pathfinderSend (netSendDepth n)

/-- `net_send`. -/
def netSend : NetSend := netSendDepth 2

/-- A path that just carried a packet is good for another while. -/
def refreshPath (source : Key) : RouterM Unit := do
  let t ← now
  modifyPath fun p => p.modifyEntry source fun e =>
    if e.broken then e else { e with deadline := t + pathTimeout }

/-- `handle_inbound_traffic`. -/
def handleInboundTraffic (tr : Traffic) : RouterM Unit := do
  let sent ← forward tr
  if sent then return ()
  else
    let r ← router
    if tr.dest = r.pubkey then
      refreshPath tr.source
      handleSessionBytes netSend tr.source tr.payload
    else
      handleBroken netSend
        { path := tr.from, watermark := maxU64, source := tr.source, dest := tr.dest }

end RouterM

end Roots

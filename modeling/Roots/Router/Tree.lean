import Roots.Router.State

/-!
# Roots.Router.Tree

The spanning tree of `src/tree.rs`: signature requests and answers, the table of
announced infos with its expiry, parent selection (`fix`) and the sending of
announces.

The walks up the tree are loops over a hash map that stop at a key seen before or
without an info. Their fuel is the number of infos plus one, which is enough for every
table, cyclic ones included (`rootLoop_fuel` and its siblings).
-/

namespace Roots

open Prog RouterM

/-- `TREE_REFRESH`. -/
def treeRefresh : Nat := seconds (4 * 60)

/-- `TREE_TIMEOUT`. -/
def treeTimeout : Nat := seconds (5 * 60)

/-- `UNKNOWN_LATENCY`. -/
def unknownLatency : Nat := 2 ^ 32 - 1

def maxU64 : UInt64 := 0xffffffffffffffff

/-- `u64::saturating_mul`. -/
def satMul (a b : UInt64) : UInt64 := UInt64.ofNat (min (a.toNat * b.toNat) (2 ^ 64 - 1))

namespace TreeState

/-! ## The table of infos -/

/-- Whether `update` prefers the announce to the info it has: a higher sequence number,
then a lower parent, then a lower nonce. -/
def supersedes (ann : Announce) (info : Info) : Bool :=
  info.res.req.seq < ann.res.req.seq ∨ (info.res.req.seq = ann.res.req.seq ∧
    (ann.parent < info.parent ∨ (ann.parent = info.parent ∧
      ann.res.req.nonce < info.res.req.nonce)))

/-- The part of `update` after its precedence test. -/
def adopt (t : TreeState) (pubkey : Key) (ann : Announce) (now : Instant) : TreeState :=
  { t with
    sent := t.sent.mapValues (List.filter (· ≠ ann.key))
    deadlines := t.deadlines.insert ann.key
      (now + if ann.key = pubkey then treeRefresh else treeTimeout)
    infos := t.infos.insert ann.key ann.info }

/-- Whether `update` adopts the announce. -/
def adopts (t : TreeState) (ann : Announce) : Bool :=
  match t.infos.lookup ann.key with
  | some info => supersedes ann info
  | none => true

/-- `update`. -/
def update (t : TreeState) (pubkey : Key) (ann : Announce) (now : Instant) : TreeState × Bool :=
  if t.adopts ann then (t.adopt pubkey ann now, true) else (t, false)

theorem infos_update (t : TreeState) (pubkey : Key) (ann : Announce) (now : Instant) :
    (t.update pubkey ann now).1.infos =
      if t.adopts ann then t.infos.insert ann.key ann.info else t.infos := by
  unfold update
  split <;> rfl

@[simp]
theorem peers_update (t : TreeState) (pubkey : Key) (ann : Announce) (now : Instant) :
    (t.update pubkey ann now).1.peers = t.peers := by
  unfold update
  split <;> rfl

/-- What `expire` does for one dead key. -/
def forget (t : TreeState) (k : Key) : TreeState :=
  { t with
    deadlines := t.deadlines.erase k
    infos := t.infos.erase k
    sent := t.sent.mapValues (List.filter (· ≠ k)) }

/-- The keys whose deadline has passed. -/
def dead (t : TreeState) (now : Instant) : List Key :=
  (t.deadlines.toList.filter fun e => e.2 ≤ now).map Prod.fst

/-- The self-refresh timer of `expire`. -/
def refreshDue (t : TreeState) (now : Instant) : TreeState :=
  match t.selfRefreshAt with
  | some due =>
      if due ≤ now then
        { t with refresh := true, selfRefreshAt := some (now + treeRefresh) }
      else t
  | none => t

/-- `expire`. -/
def expire (t : TreeState) (now : Instant) : TreeState :=
  ((t.dead now).foldl forget t).refreshDue now

/-! ## Walks up the tree -/

/-- The loop of `root_and_dists`. -/
def rootLoop (infos : Assoc Key Info) :
    Nat → Key → Key → UInt64 → Assoc Key UInt64 → Key × Assoc Key UInt64
  | 0, _, root, _, dists => (root, dists)
  | fuel + 1, next, root, dist, dists =>
      if next ∈ dists then (root, dists)
      else
        match infos.lookup next with
        | some info => rootLoop infos fuel info.parent next (dist + 1) (dists.insert next dist)
        | none => (root, dists)

/-- `root_and_dists`. -/
def rootAndDists (infos : Assoc Key Info) (dest : Key) : Key × Assoc Key UInt64 :=
  rootLoop infos (infos.keys.length + 1) dest dest 0 ∅

/-- The loop of `ancestry`; the list is in the order of the result, so the key pushed
last is its head. -/
def ancestryLoop (infos : Assoc Key Info) : Nat → List Key → Key → List Key
  | 0, anc, _ => anc
  | fuel + 1, anc, here =>
      match infos.lookup here with
      | some info =>
          if info.parent ∈ anc then anc
          else ancestryLoop infos fuel (info.parent :: anc) info.parent
      | none => anc.tail

/-- `ancestry`: the ancestors of a key and the key itself, root first. -/
def ancestry (infos : Assoc Key Info) (key : Key) : List Key :=
  ancestryLoop infos (infos.keys.length + 1) [key] key

/-- The loop of `root_path_for`; the ports are in the order of the result. -/
def rootPathLoop (infos : Assoc Key Info) :
    Nat → List UInt64 → List Key → Key → Option (List UInt64)
  | 0, _, _, _ => none
  | fuel + 1, ports, seen, next =>
      if next ∈ seen then none
      else
        match infos.lookup next with
        | none => none
        | some info =>
            if next = info.parent then some ports
            else rootPathLoop infos fuel (info.res.port :: ports) (next :: seen) info.parent

/-- `root_path_for`. -/
def rootPathFor (infos : Assoc Key Info) (dest : Key) : Option (List UInt64) :=
  rootPathLoop infos (infos.keys.length + 1) [] [] dest

/-! ### Fuel -/

/-- The keys with an info that a walk has not seen. -/
def unseen (infos : Assoc Key Info) (seen : Key → Bool) : Nat := infos.keys.countP (!seen ·)

theorem unseen_lt {infos : Assoc Key Info} {seen seen' : Key → Bool} {k : Key}
    (hmono : ∀ x, seen x = true → seen' x = true) (hk : k ∈ infos) (hseen : seen k = false)
    (hseen' : seen' k = true) : unseen infos seen' < unseen infos seen := by
  have hfilter : unseen infos seen' = (infos.keys.filter (!seen ·)).countP (!seen' ·) := by
    rw [List.countP_filter, unseen]
    refine List.countP_congr fun x _ => ?_
    cases hx : seen x with
    | false => simp
    | true => simp [hmono x hx]
  rw [hfilter, unseen, List.countP_eq_length_filter (p := (!seen ·)), List.countP_lt_length_iff]
  exact ⟨k, List.mem_filter.mpr ⟨hk, by simp [hseen]⟩, by simp [hseen']⟩

theorem rootLoop_fuel {infos : Assoc Key Info} : ∀ (fuel : Nat) (next root : Key) (dist : UInt64)
    (dists : Assoc Key UInt64), unseen infos (· ∈ dists) < fuel →
      rootLoop infos (fuel + 1) next root dist dists = rootLoop infos fuel next root dist dists := by
  intro fuel
  induction fuel with
  | zero =>
    intro next root dist dists h
    omega
  | succ fuel ih =>
    intro next root dist dists h
    rw [rootLoop, rootLoop]
    by_cases hseen : next ∈ dists
    · rw [if_pos hseen, if_pos hseen]
    · rw [if_neg hseen, if_neg hseen]
      cases hinfo : infos.lookup next with
      | none => rfl
      | some info =>
        -- The key is marked, so one key less is left.
        have hlt : unseen infos (· ∈ dists.insert next dist) < unseen infos (· ∈ dists) :=
          unseen_lt (by simp +contextual) (Assoc.mem_iff_lookup.mpr ⟨info, hinfo⟩)
            (by simpa using hseen) (by simp)
        exact ih _ _ _ _ (by omega)

theorem ancestryLoop_fuel {infos : Assoc Key Info} : ∀ (fuel : Nat) (seen : List Key) (here : Key),
    here ∉ seen → unseen infos (· ∈ seen) < fuel →
      ancestryLoop infos (fuel + 1) (here :: seen) here =
        ancestryLoop infos fuel (here :: seen) here := by
  intro fuel
  induction fuel with
  | zero =>
    intro seen here _ h
    omega
  | succ fuel ih =>
    intro seen here hhere h
    rw [ancestryLoop, ancestryLoop]
    cases hinfo : infos.lookup here with
    | none => rfl
    | some info =>
      by_cases hparent : info.parent ∈ here :: seen
      · simp only [if_pos hparent]
      · simp only [if_neg hparent]
        have hlt : unseen infos (· ∈ here :: seen) < unseen infos (· ∈ seen) :=
          unseen_lt (by simp +contextual) (Assoc.mem_iff_lookup.mpr ⟨info, hinfo⟩)
            (by simpa using hhere) (by simp)
        exact ih _ _ hparent (by omega)

theorem rootPathLoop_fuel {infos : Assoc Key Info} : ∀ (fuel : Nat) (ports : List UInt64)
    (seen : List Key) (next : Key), unseen infos (· ∈ seen) < fuel →
      rootPathLoop infos (fuel + 1) ports seen next = rootPathLoop infos fuel ports seen next := by
  intro fuel
  induction fuel with
  | zero =>
    intro ports seen next h
    omega
  | succ fuel ih =>
    intro ports seen next h
    rw [rootPathLoop, rootPathLoop]
    by_cases hseen : next ∈ seen
    · rw [if_pos hseen, if_pos hseen]
    · rw [if_neg hseen, if_neg hseen]
      cases hinfo : infos.lookup next with
      | none => rfl
      | some info =>
        by_cases hroot : next = info.parent
        · simp only [if_pos hroot]
        · simp only [if_neg hroot]
          have hlt : unseen infos (· ∈ next :: seen) < unseen infos (· ∈ seen) :=
            unseen_lt (by simp +contextual) (Assoc.mem_iff_lookup.mpr ⟨info, hinfo⟩)
              (by simpa using hseen) (by simp)
          exact ih _ _ _ (by omega)

/-- The walk of `ancestry` only keeps keys with an info. -/
theorem mem_infos_of_mem_ancestryLoop {infos : Assoc Key Info} : ∀ (fuel : Nat) (seen : List Key)
    (here : Key), here ∉ seen → unseen infos (· ∈ seen) < fuel → (∀ k ∈ seen, k ∈ infos) →
      ∀ k ∈ ancestryLoop infos fuel (here :: seen) here, k ∈ infos := by
  intro fuel
  induction fuel with
  | zero =>
    intro seen here _ h
    omega
  | succ fuel ih =>
    intro seen here hhere h hseen
    rw [ancestryLoop]
    cases hinfo : infos.lookup here with
    | none => exact hseen
    | some info =>
      have hmem : here ∈ infos := Assoc.mem_iff_lookup.mpr ⟨info, hinfo⟩
      have hall : ∀ k ∈ here :: seen, k ∈ infos := List.forall_mem_cons.mpr ⟨hmem, hseen⟩
      by_cases hparent : info.parent ∈ here :: seen
      · simpa only [if_pos hparent] using hall
      · simp only [if_neg hparent]
        have hlt : unseen infos (· ∈ here :: seen) < unseen infos (· ∈ seen) :=
          unseen_lt (by simp +contextual) hmem (by simpa using hhere) (by simp)
        exact ih _ _ hparent (by omega) hall

theorem mem_infos_of_mem_ancestry {infos : Assoc Key Info} {key k : Key}
    (h : k ∈ ancestry infos key) : k ∈ infos := by
  refine mem_infos_of_mem_ancestryLoop _ [] key List.not_mem_nil ?_ (by simp) k h
  exact Nat.lt_succ_of_le List.countP_le_length

/-! ## Costs -/

/-- `link_cost`: whole milliseconds, at least one. -/
def linkCost (t : TreeState) (id : LinkId) : UInt64 :=
  match t.links.lookup id with
  | some l => max (UInt64.ofNat (l.lag / 1000000)) 1
  | none => 1

/-- `cost`: the cheapest live link to a key. -/
def cost (t : TreeState) (links : LinkSet) (peer : Key) : UInt64 :=
  ((links.linksTo peer).map t.linkCost).min?.getD maxU64

/-! ## Parent selection -/

/-- The best root, parent and cost `fix` has seen. -/
structure Choice where
  root : Key
  parent : Key
  cost : UInt64

/-- Where the scan of `fix` starts: the current parent, if it is still linked and leads
to a better root than this node. -/
def startChoice (t : TreeState) (links : LinkSet) (pubkey : Key) : Choice :=
  let none' : Choice := ⟨pubkey, pubkey, maxU64⟩
  match t.infos.lookup pubkey with
  | none => none'
  | some info =>
      if links.hasPeer info.parent then
        let (root, dists) := rootAndDists t.infos pubkey
        match dists.lookup root with
        | some d =>
            if root < pubkey then ⟨root, info.parent, satMul d (t.cost links info.parent)⟩
            else none'
        | none => none'
      else none'

/-- One candidate in the scan of `fix`. -/
def consider (t : TreeState) (links : LinkSet) (pubkey : Key) (best : Choice) (pk : Key) :
    Choice :=
  if pk ∉ t.infos then best
  else
    let (pRoot, pDists) := rootAndDists t.infos pk
    if pubkey ∈ pDists then best
    else
      let cost := satMul ((pDists.lookup pRoot).getD maxU64) (t.cost links pk)
      let found : Choice := ⟨pRoot, pk, cost⟩
      if pRoot < best.root then
        -- The tests below compare the candidate with itself now.
        found
      else if pRoot ≠ best.root then best
      else
        let curParent := (t.infos.lookup pubkey).map Info.parent
        if (t.refresh ∧ satMul cost 2 < best.cost) ∨
            (some best.parent ≠ curParent ∧ cost < best.cost) then found
        else best

/-- The scan of `fix` over the stored responses, in key order. -/
def select (t : TreeState) (links : LinkSet) (pubkey : Key) : Choice :=
  (sortKeys t.responses.keys).foldl (t.consider links pubkey) (t.startChoice links pubkey)

end TreeState

namespace RouterM

variable [Crypto]

/-! ## Requests and answers -/

/-- `new_req`. -/
def newReq : RouterM SigReq := do
  let r ← router
  let nonce ← draw Env.random
  let seq := match r.tree.infos.lookup r.pubkey with
    | some info => info.res.req.seq + 1
    | none => 1
  return { seq, nonce }

/-- Update the state of each of the links. -/
def modifyLinks (ids : List LinkId) (f : LinkState → LinkState) : RouterM Unit :=
  modifyTree fun t => { t with links := ids.foldl (fun m id => m.modify id f) t.links }

/-- `send_req`. -/
def sendReq (peerKey : Key) : RouterM Unit := do
  let req ← newReq
  modifyTree fun t => { t with peers := t.peers.modify peerKey fun p => { p with req := req } }
  let ls ← links
  let targets := ls.linksTo peerKey
  modifyLinks targets fun l => { l with responded := false }
  let sent ← result (writeAll peerKey .sigReq req.encode)
  match sent with
  | .ok _ =>
      let t ← now
      modifyLinks targets fun l => { l with sentAt := some t }
  | .error e => exit e

/-- `handle_request`. -/
def handleRequest (conn : LinkId) (peerKey : Key) (req : SigReq) : RouterM Unit := do
  let r ← router
  let port := ((r.tree.peers.lookup peerKey).map PeerState.port).getD 0
  let res := SigRes.seal req port peerKey r.key r.pubkey
  write conn .sigRes res.encode

/-- The lag estimate after a round trip: seeded with twice the first one, then moved
an eighth of the way, with one round trip counting for at most twice the lag. -/
def nextLag (lag rtt : Nat) : Nat :=
  if lag = unknownLatency then rtt * 2 else lag * 7 / 8 + min rtt (lag * 2) / 8

/-- `handle_response`. -/
def handleResponse (conn : LinkId) (peerKey : Key) (res : SigRes) : RouterM Unit := do
  let r ← router
  if !res.check r.pubkey peerKey then return ()
  let t ← now
  let rtt := ((r.tree.links.lookup conn).bind LinkState.sentAt).map (t - ·)
  let t' ← now
  modifyLinks [conn] fun l => { l with srrt := some t' }
  let answers := (r.tree.peers.lookup peerKey).any fun p => p.req = res.req
  if !answers then return ()
  modifyTree fun t => { t with responses := t.responses.orInsert peerKey res }
  match rtt with
  | none => return ()
  | some rtt =>
      modifyLinks [conn] fun l =>
        if l.responded then l else { l with responded := true, lag := nextLag l.lag rtt }

/-! ## Own info -/

/-- `update` on the router, with the clock it reads. -/
def updateTree (ann : Announce) : RouterM Bool := do
  let r ← router
  let t ← now
  let r' := r.tree.update r.pubkey ann t
  modifyTree fun _ => r'.1
  return r'.2

/-- `update` in the world: the clock is read once. -/
theorem updateTree_run (ann : Announce) (w : World) :
    updateTree ann w =
      (.ok (w.router.tree.adopts ann),
        { w with
          tick := w.tick + 1
          router.tree := (w.router.tree.update w.router.pubkey ann (w.env.now w.tick)).1 }) := by
  have hadopts : ∀ t, (w.router.tree.update w.router.pubkey ann t).2 = w.router.tree.adopts ann := by
    intro t
    unfold TreeState.update
    cases w.router.tree.adopts ann <;> rfl
  exact Prod.ext (congrArg Except.ok (hadopts _)) rfl

/-- The announce `use_response` makes of a parent's answer. -/
def ownAnnounce (r : Router) (parent : Key) (res : SigRes) : Announce where
  key := r.pubkey
  parent := parent
  res := res
  sig := Crypto.sign r.key (res.bytesForSig r.pubkey parent)

/-- `use_response`. -/
def useResponse (peerKey : Key) (res : SigRes) : RouterM Bool := do
  let r ← router
  let ann := ownAnnounce r peerKey res
  if ann.check then updateTree ann else return false

/-- The announce of a root: its own parent, on port zero. -/
def rootAnnounce (r : Router) (req : SigReq) : Announce :=
  let res := SigRes.seal req 0 r.pubkey r.key r.pubkey
  ⟨r.pubkey, r.pubkey, res, res.psig⟩

/-- `become_root`. -/
def becomeRoot : RouterM Unit := do
  let req ← newReq
  let r ← router
  let _ ← updateTree (rootAnnounce r req)
  let t ← now
  modifyTree fun tree => { tree with selfRefreshAt := some (t + treeRefresh) }

/-- `send_all_reqs`. -/
def sendAllReqs : RouterM Unit := do
  modifyTree fun t => { t with responses := ∅ }
  let ls ← links
  forEach (sortKeys ls.peers) sendReq

/-- The end of `fix` once the node has a new info. -/
def settle : RouterM Unit := do
  modifyTree fun t => { t with refresh := false, doRoot1 := false, doRoot2 := false }
  sendAllReqs

/-- The last `else` branches of `fix`, when no response is used. -/
def rootOrWait : RouterM Unit := do
  let r ← router
  if r.tree.doRoot2 then
    becomeRoot
    settle
  else if !r.tree.doRoot1 then
    modifyTree fun t => { t with doRoot1 := true }
  else return ()

/-- `fix`. -/
def fix : RouterM Unit := do
  let r ← router
  let ls ← links
  let best := r.tree.select ls r.pubkey
  let curParent := (r.tree.infos.lookup r.pubkey).map Info.parent
  if r.tree.refresh || r.tree.doRoot1 || r.tree.doRoot2 || curParent ≠ some best.parent then
    match r.tree.responses.lookup best.parent with
    | some res =>
        if best.root ≠ r.pubkey then
          let used ← useResponse best.parent res
          if used then settle else rootOrWait
        else rootOrWait
    | none => rootOrWait
  else return ()

/-- `expire` with the clock it reads. -/
def expireTree : RouterM Unit := do
  let t ← now
  modifyTree fun tree => tree.expire t

/-! ## Announces -/

omit [Crypto] in
/-- The keys of a list that a set does not have yet, in order, and the set with them. -/
def unsent (keys sent : List Key) : List Key × List Key :=
  keys.foldl (fun acc k => if k ∈ acc.2 then acc else (acc.1 ++ [k], k :: acc.2)) ([], sent)

omit [Crypto] in
theorem mem_unsent {keys sent : List Key} {k : Key} (h : k ∈ (unsent keys sent).2) :
    k ∈ keys ∨ k ∈ sent := by
  have hfold : ∀ (l : List Key) (acc : List Key × List Key), k ∈ (l.foldl (fun acc k =>
      if k ∈ acc.2 then acc else (acc.1 ++ [k], k :: acc.2)) acc).2 → k ∈ l ∨ k ∈ acc.2 := by
    intro l
    induction l with
    | nil => exact fun _ h => .inr h
    | cons x l ih =>
      intro acc h
      rcases ih _ h with h | h
      · exact .inl (List.mem_cons_of_mem _ h)
      · dsimp only at h
        split at h
        · exact .inr h
        · exact (List.mem_cons.mp h).imp (fun heq => List.mem_cons.mpr (.inl heq)) id
  exact hfold keys ([], sent) h

omit [Crypto] in
/-- What is in the set now was there before or is to be sent. -/
theorem mem_unsent_or {keys sent : List Key} {k : Key} (h : k ∈ (unsent keys sent).2) :
    k ∈ sent ∨ k ∈ (unsent keys sent).1 := by
  have hfold : ∀ (l : List Key) (acc : List Key × List Key),
      (∀ x ∈ acc.2, x ∈ sent ∨ x ∈ acc.1) →
      ∀ x ∈ (l.foldl (fun acc k => if k ∈ acc.2 then acc else (acc.1 ++ [k], k :: acc.2)) acc).2,
        x ∈ sent ∨
          x ∈ (l.foldl (fun acc k => if k ∈ acc.2 then acc else (acc.1 ++ [k], k :: acc.2)) acc).1 := by
    intro l
    induction l with
    | nil => exact fun _ h => h
    | cons k l ih =>
      intro acc hacc
      refine ih _ ?_
      dsimp only
      split
      · exact hacc
      · intro x hx
        rcases List.mem_cons.mp hx with rfl | hx
        · exact .inr (by simp)
        · exact (hacc x hx).imp_right (List.mem_append_left _)
  exact hfold keys ([], sent) (fun _ hx => .inl hx) k h

/-- One announce of `send_announces`. -/
def sendAnnounce (peerKey k : Key) : RouterM Unit := do
  let r ← router
  match r.tree.infos.lookup k with
  | none => return ()
  | some info =>
      let ls ← links
      if ls.hasPeer peerKey then writeAll peerKey .announce (info.announce k).encode
      else return ()

/-- `send_announces`. -/
def sendAnnounces : RouterM Unit := do
  let r ← router
  let selfAnc := TreeState.ancestry r.tree.infos r.pubkey
  forEach (sortKeys r.tree.sent.keys) fun peerKey => do
    let r ← router
    let peerAnc := TreeState.ancestry r.tree.infos peerKey
    let new := unsent (selfAnc ++ peerAnc) ((r.tree.sent.lookup peerKey).getD [])
    modifyTree fun t => { t with sent := t.sent.insert peerKey new.2 }
    forEach new.1 (sendAnnounce peerKey)

/-- `handle_announce`: an announce to send back if the one that came is not better than
the one that is known. -/
def handleAnnounce (src : Key) (ann : Announce) : RouterM (Option Announce) := do
  let r ← router
  let adopted ← updateTree ann
  if adopted ∧ ann.key = r.pubkey then modifyTree fun t => { t with refresh := true }
  modifyTree fun t =>
    { t with sent := t.sent.insert src (((t.sent.lookup src).getD []).insert ann.key) }
  if adopted then return none
  else
    match r.tree.infos.lookup ann.key with
    | some info => if info ≠ ann.info then return some (info.announce ann.key) else return none
    | none => return none

end RouterM

end Roots

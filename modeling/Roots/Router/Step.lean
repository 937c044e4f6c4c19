import Roots.Router.Driver

/-!
# Roots.Router.Step

What the router's methods are made of. `Step` lists **every change of the state the
router ever makes**, each with what is known when it is made: a session is only opened
to a key that verified, a path is only learned from a notify that checks, a held payload
only moves to places its `Scope` allows. That each method is a sequence of such steps is
proved once, in `Roots.Router.Rules`; an invariant of the router then has to be checked
against the steps and not against the methods.

A `Scope` says which steps are possible in a given context, so that the same lemmas
tell apart methods that touch the tree and methods that do not.
-/

namespace Roots

/-- What the methods may do in a context: the keys whose held payload a notify may
release, the payloads that may be passed to the session layer for a key and the packet
types they may be sealed with, whether links come and go, whether the tree learns, whether
infos are adopted and whether they expire, whether the sent sets and the filters for peers
are written, whether queues are emptied and sessions move with what their peers say,
whether the inbox is taken out, whether ports are given out, whether the time of a request
is noted, whether sessions hand payloads to the application, from which notifies paths are
learned, and whether paths and rumors are forgotten. -/
structure Scope where
  flush : Key → Prop
  passes : Key → Payload → Prop
  seals : UInt8 → Payload → Prop
  rewires : Prop
  grows : Prop
  adopts : Prop
  ages : Prop
  marks : Prop
  filters : Prop
  drops : Prop
  drains : Prop
  numbers : Prop := True
  stamps : Prop := True
  delivers : Prop := True
  learns : PathNotify → Prop := fun _ => True
  forgets : Prop := True
  /-- A payload that was not submitted for an address may go anywhere. -/
  passes_of_none : ∀ {k p}, p.origin = none → passes k p
  /-- A payload may go to an owner of its address. -/
  passes_of_owns : ∀ {k a} b, ownsAddr k a = true → passes k ⟨b, .addressed a⟩
  /-- A payload may be sealed with the packet type it was submitted with. -/
  seals_kind : ∀ p : Payload, seals p.kind p
  /-- The node learns from its own notifies. -/
  learns_own : ∀ {n : PathNotify}, flush n.source → learns n := by intros; trivial

theorem Payload.kind_of_tag {p : Payload} (h : p.tag ≠ .proto) : p.kind = packetTypeTraffic := by
  unfold Payload.kind
  split
  · exact absurd ‹_› h
  · rfl

theorem Scope.seals_traffic (S : Scope) {p : Payload} (h : p.tag ≠ .proto) :
    S.seals packetTypeTraffic p := by
  rw [← Payload.kind_of_tag h]
  exact S.seals_kind p

/-- A rumor's payload was there before, with the same mark. -/
def Kept (before : Assoc Key RumorEntry) (x : Key) (r : RumorEntry) (p : Payload) : Prop :=
  ∃ r₀, before.lookup x = some r₀ ∧ r₀.pending = some p ∧ r₀.pendingIsApp = r.pendingIsApp

/-- What may be recorded in a context. -/
def Scope.allows (S : Scope) : Event → Prop
  | .passed k p => S.passes k p
  | .sealed _ plain p => ∃ kind, plain = kind :: p.bytes ∧ S.seals kind p
  | _ => True

/-- The events that are recorded on their own, and not with a change of the tables. -/
def Event.plain : Event → Bool
  | .stashed .. | .released .. | .delivered .. => false
  | _ => true

/-- Whether a bloom filter went out. -/
def Event.isFilter : Event → Bool
  | .wrote _ .bloomFilter _ => true
  | _ => false

/-- The peer that the tree's books have for a link. -/
def TreeState.peerAt (t : TreeState) (id : LinkId) : Option Key :=
  (t.links.lookup id).map LinkState.peer

theorem TreeState.peerAt_isSome {t : TreeState} {id : LinkId} :
    (t.peerAt id).isSome ↔ id ∈ t.links := by
  rw [peerAt, Option.isSome_map, AList.lookup_isSome]

variable [Crypto]

/-- The session with `k` has just opened a message to a payload for the application. -/
def World.Opens (w : World) (k : Key) (p : Bytes) : Prop :=
  ∃ (s : Session) (ct : Bytes) (keys : BoxKeys) (t active : Instant),
    w.router.sess.sessions.lookup k = some ((s.decrypt ct keys t).1, active) ∧
      (s.decrypt ct keys t).2 = some (packetTypeTraffic :: p)

/-- One change of the state. -/
inductive Step (S : Scope) (w : World) : World → Prop where
  /-- A reading of the surroundings. -/
  | tick : Step S w { w with tick := w.tick + 1 }
  /-- Something is recorded. -/
  | notes (es : List Event)
      (h : ∀ e ∈ es, e.plain = true ∧ S.allows e ∧ (e.isFilter = true → S.filters)) :
      Step S w { w with events := w.events ++ es }
  | stamp (m : Assoc LinkId Instant) : Step S w { w with links.lastWrite := m }
  /-- A socket refused a frame. -/
  | retire (id : LinkId) (h : ∃ n, w.env.writes n = false) :
      Step S w { w with links := w.links.remove id }
  /-- The books of the links change, but not which links are in them and who their peers are. -/
  | linkStates (m : Assoc LinkId LinkState)
      (h : ∀ id, (m.lookup id).map LinkState.peer = w.router.tree.peerAt id)
      (hstamps : S.stamps ∨ ∀ id, (m.lookup id).map LinkState.sentAt =
        (w.router.tree.links.lookup id).map LinkState.sentAt) :
      Step S w { w with router.tree.links := m }
  | peers (m : Assoc Key PeerState) (h : ∀ k ∈ w.router.tree.peers, k ∈ m)
      (hnumbers : S.numbers ∨ ∀ k, (m.lookup k).map PeerState.port =
        (w.router.tree.peers.lookup k).map PeerState.port) :
      Step S w { w with router.tree.peers := m }
  /-- Keys that have an info are marked as sent to a peer. -/
  | sent (hmarks : S.marks) (m : Assoc Key (List Key))
      (h : ∀ p l k, m.lookup p = some l → k ∈ l →
        (∃ l₀, w.router.tree.sent.lookup p = some l₀ ∧ k ∈ l₀) ∨ k ∈ w.router.tree.infos)
      (hknown : ∀ p ∈ m, p ∈ w.router.tree.sent ∨ p ∈ w.router.tree.peers) :
      Step S w { w with router.tree.sent := m }
  | ports (hnumbers : S.numbers) (n : UInt64) : Step S w { w with router.tree.nextPort := n }
  | order (n : UInt64) : Step S w { w with router.tree.peerOrder := n }
  | bloom (hfilters : S.filters) (b : BloomState) : Step S w { w with router.bloom := b }
  /-- A peer's filter is stored. -/
  | recv (m : Assoc Key BloomFilter) : Step S w { w with router.bloom.recv := m }
  | notify (n : NotifyInfo) : Step S w { w with router.path.notify := n }
  /-- A path is learned from a notify that is news. -/
  | learn (n : PathNotify) (t : Instant) (h : w.router.path.isNews n = true)
      (hlearns : S.learns n) :
      Step S w { w with router.path := w.router.path.learn n t }
  /-- Entries are marked, refreshed or dropped. -/
  | entries (m : Assoc Key PathEntry)
      (h : ∀ k e, m.lookup k = some e →
        ∃ e₀, w.router.path.entries.lookup k = some e₀ ∧ e₀.path = e.path ∧ e₀.seq = e.seq)
      (hkept : S.forgets ∨ ∀ k ∈ w.router.path.entries, k ∈ m) :
      Step S w { w with router.path.entries := m }
  /-- Rumors change, but what they hold stays or goes. -/
  | rumors (m : Assoc Key RumorEntry)
      (h : ∀ x r p, m.lookup x = some r → r.pending = some p → Kept w.router.path.rumors x r p)
      (hkept : S.forgets ∨ ∀ x ∈ w.router.path.rumors, x ∈ m) :
      Step S w { w with router.path.rumors := m }
  /-- A payload is held for an address. -/
  | hold (a : Address) (b : Bytes) (m : Assoc Key RumorEntry)
      (hpass : ∀ k, S.flush k → xkey k = xkey (lookupKeyForAddr a) → S.passes k ⟨b, .addressed a⟩)
      (h : ∀ x r p, m.lookup x = some r → r.pending = some p →
        Kept w.router.path.rumors x r p ∨
          (x = xkey (lookupKeyForAddr a) ∧ p = ⟨b, .addressed a⟩ ∧ r.pendingIsApp = true))
      (hkept : ∀ x ∈ w.router.path.rumors, x ∈ m) :
      Step S w { w with router.path.rumors := m }
  /-- A sealed message is put into a rumor. -/
  | stash (dest : Key) (b : Bytes) (onApp : Bool) (m : Assoc Key RumorEntry)
      (h : ∀ x r p, m.lookup x = some r → r.pending = some p →
        Kept w.router.path.rumors x r p ∨ (p = ⟨b, .sealed⟩ ∧ r.pendingIsApp = onApp))
      (hkept : ∀ x ∈ w.router.path.rumors, x ∈ m) :
      Step S w
        { w with
          router.path.rumors := m
          events := w.events ++ [.stashed dest onApp] }
  /-- A notify takes what a rumor holds. -/
  | release (source : Key) (p : Payload) (isApp : Bool)
      (h : w.router.path.heldFor source = some (p, isApp)) :
      Step S w
        { w with
          router.path := w.router.path.takeHeld source
          events := w.events ++ [.released source p isApp] }
  | initSeq (n : UInt64) : Step S w { w with router.sess.initSeq := n }
  /-- A session is opened or moves on with a message of its peer. -/
  | session (hdrops : S.drops) (k : Key) (s : Session) (t : Instant)
      (h : Crypto.validKey k = true) :
      Step S w { w with router.sess.sessions := w.router.sess.sessions.insert k (s, t) }
  /-- A session seals a message. -/
  | encrypt (k : Key) (s : Session) (t t' : Instant) (msg : Bytes) (keys : BoxKeys)
      (h : w.router.sess.sessions.lookup k = some (s, t)) :
      Step S w
        { w with
          router.sess.sessions := w.router.sess.sessions.insert k ((s.encrypt msg keys).1, t') }
  /-- Idle sessions go. -/
  | sessions (hdrops : S.drops) (m : Assoc Key (Session × Instant))
      (h : ∀ k, k ∈ m → k ∈ w.router.sess.sessions) :
      Step S w { w with router.sess.sessions := m }
  /-- A payload is buffered behind an init. -/
  | buf (k : Key) (held : HeldBuf)
      (h : ∀ kind p, held.data = some (kind, p) → S.passes k p ∧ S.seals kind p)
      (hold : ∀ old kind p, w.router.sess.bufs.lookup k = some old → old.data = some (kind, p) →
        .displaced k p ∈ w.events) :
      Step S w { w with router.sess.bufs := w.router.sess.bufs.insert k held }
  /-- Buffers go. -/
  | bufs (hdrops : S.drops) (m : Assoc Key HeldBuf)
      (h : ∀ k held, m.lookup k = some held → w.router.sess.bufs.lookup k = some held) :
      Step S w { w with router.sess.bufs := m }
  /-- A payload is kept for a retry. -/
  | resend (k : Key) (p : Payload) (h : S.passes k p) :
      Step S w { w with router.sess.resend := w.router.sess.resend ++ [(k, p)] }
  /-- A payload for the application reaches the inbox. -/
  | deliver (hdelivers : S.delivers) (k : Key) (p : Bytes) (h : w.Opens k p) :
      Step S w
        { w with
          router.inbox := w.router.inbox ++ [(k, p)]
          events := w.events ++ [.delivered k p] }
  | drain (hdrains : S.drains) : Step S w { w with router.inbox := [] }
  | protoInbox (l : List (Key × Bytes)) : Step S w { w with router.protoInbox := l }
  | nodeinfo (b : Bytes) : Step S w { w with router.nodeinfo := b }
  | enqueue (k : Key) (p : Payload) (h : p.origin = none) :
      Step S w { w with outbox := w.outbox ++ [(k, p)] }
  /-- The outbox is taken out to be sent. -/
  | takeOutbox (hdrops : S.drops) : Step S w { w with outbox := [] }
  | requeue :
      Step S w
        { w with outbox := w.router.sess.resend ++ w.outbox, router.sess.resend := [] }
  | mint : Step S w { w with nextLink := w.nextLink + 1 }
  /-- A link that is not in the set yet is entered in the tree's books. -/
  | enter (hrewires : S.rewires) (id : LinkId) (l : LinkState) (hnew : id ∉ w.links.ids) :
      Step S w { w with router.tree.links := w.router.tree.links.insert id l }
  /-- A registered link is added to the set. -/
  | join (hrewires : S.rewires) (link : Link) (t : Instant)
      (h : w.router.tree.peerAt link.id = some link.peer)
      (hpeer : link.peer ∈ w.router.tree.peers) (hnew : link.id ∉ w.links.ids)
      (hminted : link.id < w.nextLink) :
      Step S w { w with links := w.links.add link t }
  /-- A link goes, in both books. -/
  | leave (hrewires : S.rewires) (id : LinkId) :
      Step S w
        { w with
          links := w.links.remove id
          router.tree.links := w.router.tree.links.erase id }
  /-- An announce that checks, or one this node makes as a root, is adopted. -/
  | adopt (hadopt : S.adopts) (ann : Announce) (t : Instant)
      (hcheck : ann.check = true ∨ ∃ req, ann = RouterM.rootAnnounce w.router req)
      (hadopts : w.router.tree.adopts ann = true) :
      Step S w { w with router.tree := w.router.tree.adopt w.router.pubkey ann t }
  /-- An answer is stored, or all are dropped. -/
  | responses (hgrows : S.grows) (m : Assoc Key SigRes)
      (h : ∀ k res, m.lookup k = some res →
        w.router.tree.responses.lookup k = some res ∨ res.check w.router.pubkey k = true) :
      Step S w { w with router.tree.responses := m }
  | flags (hgrows : S.grows) (refresh doRoot1 doRoot2 : Bool) :
      Step S w
        { w with
          router.tree.refresh := refresh
          router.tree.doRoot1 := doRoot1
          router.tree.doRoot2 := doRoot2 }
  | selfRefresh (hgrows : S.grows) (at_ : Option Instant) :
      Step S w { w with router.tree.selfRefreshAt := at_ }
  /-- Time passes for the tree. -/
  | expire (hages : S.ages) (t : Instant) :
      Step S w { w with router.tree := w.router.tree.expire t }

/-! ## The invariant -/

/-- What holds in every state: every link of the set is in the tree's books with its peer,
sessions and paths are with keys that verify, and payloads only wait where they may go. -/
structure Inv (S : Scope) (w : World) : Prop where
  own : S.flush w.router.pubkey
  served : ∀ e ∈ w.links.entries, w.router.tree.peerAt e.id = some e.peer
  peered : ∀ e ∈ w.links.entries, e.peer ∈ w.router.tree.peers
  known : ∀ p ∈ w.router.tree.sent, p ∈ w.router.tree.peers
  nodup : w.links.ids.Nodup
  minted : ∀ id ∈ w.links.ids, id < w.nextLink
  valid : ∀ k ∈ w.router.sess.sessions, Crypto.validKey k = true
  paths : ∀ k ∈ w.router.path.entries, Crypto.validKey k = true
  slots : ∀ k, S.flush k → ∀ p, w.router.path.heldFor k = some (p, true) → S.passes k p
  held : ∀ x r p, w.router.path.rumors.lookup x = some r → r.pending = some p → p.tag ≠ .proto
  outbox : ∀ x ∈ w.outbox, S.passes x.1 x.2
  resend : ∀ x ∈ w.router.sess.resend, S.passes x.1 x.2
  bufs : ∀ k held, w.router.sess.bufs.lookup k = some held →
    ∀ kind p, held.data = some (kind, p) → S.passes k p ∧ S.seals kind p
  events : ∀ e ∈ w.events, S.allows e

theorem Inv.linked {S : Scope} {w : World} (h : Inv S w) {id : LinkId} (hid : id ∈ w.links.ids) :
    id ∈ w.router.tree.links := by
  obtain ⟨e, he, rfl⟩ := List.mem_map.mp hid
  exact TreeState.peerAt_isSome.mp (Option.isSome_iff_exists.mpr ⟨_, h.served e he⟩)

theorem Inv.peer_mem {S : Scope} {w : World} (h : Inv S w) {id : LinkId} {peer : Key}
    (hpeer : w.links.peerOf id = some peer) : peer ∈ w.router.tree.peers := by
  obtain ⟨e, he, -, rfl⟩ := LinkSet.exists_of_peerOf hpeer
  exact h.peered e he

omit [Crypto] in
theorem PathState.heldFor_eq_some {p : PathState} {k : Key} {payload : Payload} {isApp : Bool} :
    p.heldFor k = some (payload, isApp) ↔
      ∃ r, p.rumors.lookup (xkey k) = some r ∧ r.pending = some payload ∧
        r.pendingIsApp = isApp := by
  unfold PathState.heldFor
  cases hr : p.rumors.lookup (xkey k) with
  | none => simp
  | some r => cases hp : r.pending <;> simp [hp]

/-- The rumors afterwards hold what they held before, or what may go to whom they are for. -/
theorem Inv.refile {S : Scope} {w : World} (h : Inv S w) {q : PathState}
    (hq : ∀ x r p, q.rumors.lookup x = some r → r.pending = some p →
      Kept w.router.path.rumors x r p ∨
        p.tag ≠ .proto ∧ ∀ k, S.flush k → xkey k = x → S.passes k p) :
    (∀ k, S.flush k → ∀ p, q.heldFor k = some (p, true) → S.passes k p) ∧
      ∀ x r p, q.rumors.lookup x = some r → r.pending = some p → p.tag ≠ .proto := by
  constructor
  · intro k hk p hheld
    obtain ⟨r, hlookup, hpending, happ⟩ := PathState.heldFor_eq_some.mp hheld
    rcases hq _ r p hlookup hpending with ⟨r₀, hlookup₀, hpending₀, hsame⟩ | ⟨-, hpass⟩
    · exact h.slots k hk p
        (PathState.heldFor_eq_some.mpr ⟨r₀, hlookup₀, hpending₀, hsame.trans happ⟩)
    · exact hpass k hk rfl
  · intro x r p hlookup hpending
    rcases hq x r p hlookup hpending with ⟨r₀, hlookup₀, hpending₀, -⟩ | ⟨htag, -⟩
    · exact h.held x r₀ p hlookup₀ hpending₀
    · exact htag

/-- More events are allowed if each of them is. -/
theorem Inv.allows_append {S : Scope} {w : World} (h : Inv S w) {es : List Event}
    (hes : ∀ e ∈ es, S.allows e) : ∀ e ∈ w.events ++ es, S.allows e := fun e he =>
  (List.mem_append.mp he).elim (h.events e) (hes e)

omit [Crypto] in
/-- What is in a rumor after its payload was taken was there before. -/
theorem PathState.kept_takeHeld (p : PathState) (source : Key) {x : Key} {r : RumorEntry}
    {payload : Payload} (hlookup : (p.takeHeld source).rumors.lookup x = some r)
    (hpending : r.pending = some payload) : Kept p.rumors x r payload := by
  change (p.rumors.modify (xkey source) fun r => { r with pending := none }).lookup x = some r
    at hlookup
  rw [Assoc.lookup_modify] at hlookup
  split at hlookup
  · obtain ⟨r₀, -, rfl⟩ := Option.map_eq_some_iff.mp hlookup
    cases hpending
  · exact ⟨r, hlookup, hpending, rfl⟩

namespace TreeState

/-- What expiry leaves alone: the links, the peers and which of them have a sent set. -/
structure Aged (t t' : TreeState) : Prop where
  links : t'.links = t.links
  peers : t'.peers = t.peers
  sent : ∀ p, p ∈ t'.sent ↔ p ∈ t.sent

omit [Crypto] in
theorem Aged.peerAt {t t' : TreeState} (h : t.Aged t') (id : LinkId) :
    t'.peerAt id = t.peerAt id := by
  unfold TreeState.peerAt
  rw [h.links]

omit [Crypto] in
theorem foldl_forget_aged (keys : List Key) (t : TreeState) : t.Aged (keys.foldl forget t) := by
  induction keys generalizing t with
  | nil => exact ⟨rfl, rfl, fun _ => Iff.rfl⟩
  | cons k keys ih =>
    have hrest := ih (t.forget k)
    exact ⟨hrest.links, hrest.peers, fun p => (hrest.sent p).trans Assoc.mem_mapValues⟩

omit [Crypto] in
theorem expire_aged (t : TreeState) (now : Instant) : t.Aged (t.expire now) := by
  have hforget := foldl_forget_aged (t.dead now) t
  unfold expire refreshDue
  split
  · split
    · exact { hforget with }
    · exact hforget
  · exact hforget

end TreeState

/-- Every step keeps the invariant. -/
theorem Inv.step {S : Scope} {w w' : World} (hstep : Step S w w') (h : Inv S w) : Inv S w' := by
  cases hstep with
  | tick | stamp | ports | order | bloom | recv | notify | initSeq | drain | protoInbox | nodeinfo
  | responses | flags | selfRefresh => exact { h with }
  | peers m hm =>
    exact { h with
      peered := fun e he => hm _ (h.peered e he)
      known := fun p hp => hm p (h.known p hp) }
  | sent _ m _ hknown => exact { h with known := fun p hp => (hknown p hp).elim (h.known p) id }
  | adopt _ ann t => exact { h with known := fun p hp => h.known p (Assoc.mem_mapValues.mp hp) }
  | mint => exact { h with minted := fun i hi => (h.minted i hi).trans (Nat.lt_succ_self _) }
  | learn n t hnews =>
    have hcheck : n.check = true := (Bool.and_eq_true_iff.mp hnews).2
    refine { h with paths := fun k hk => ?_ }
    rcases AList.mem_insert _ |>.mp hk with rfl | hmem
    · exact (Bool.and_eq_true_iff.mp hcheck).1
    · exact h.paths k hmem
  | entries m hm =>
    refine { h with paths := fun k hk => ?_ }
    obtain ⟨e, he⟩ := Assoc.mem_iff_lookup.mp hk
    obtain ⟨e₀, he₀, -⟩ := hm k e he
    exact h.paths k (Assoc.mem_iff_lookup.mpr ⟨e₀, he₀⟩)
  | expire _ t =>
    have haged := w.router.tree.expire_aged t
    refine { h with served := fun e he => ?_, peered := ?_, known := fun p hp => ?_ }
    · exact (haged.peerAt e.id).trans (h.served e he)
    · exact haged.peers ▸ h.peered
    · exact haged.peers ▸ h.known p ((haged.sent p).mp hp)
  | retire id =>
    have hsub := w.links.ids_remove_subset id
    refine { h with
      served := fun e he => h.served e (List.mem_of_mem_eraseP he)
      peered := fun e he => h.peered e (List.mem_of_mem_eraseP he)
      minted := fun i hi => h.minted i (hsub hi)
      nodup := ?_ }
    show (w.links.remove id).ids.Nodup
    rw [LinkSet.ids_remove]
    exact h.nodup.erase id
  | linkStates m hm => exact { h with served := fun e he => (hm e.id).trans (h.served e he) }
  | enter _ id l hnew =>
    refine { h with served := fun e he => ?_ }
    have hne : e.id ≠ id := fun heq => hnew (heq ▸ List.mem_map_of_mem he)
    show ((w.router.tree.links.insert id l).lookup e.id).map LinkState.peer = some e.peer
    rw [AList.lookup_insert_ne hne]
    exact h.served e he
  | rumors m hm =>
    have hfiled := h.refile (q := { w.router.path with rumors := m }) fun x r p hlookup hpending =>
      .inl (hm x r p hlookup hpending)
    exact { h with slots := hfiled.1, held := hfiled.2 }
  | hold a b m hpass hm =>
    have hfiled := h.refile (q := { w.router.path with rumors := m }) fun x r p hlookup hpending =>
      (hm x r p hlookup hpending).imp_right fun ⟨hx, hp, _⟩ =>
        hp ▸ ⟨nofun, fun k hk hkey => hpass k hk (hkey.trans hx)⟩
    exact { h with slots := hfiled.1, held := hfiled.2 }
  | stash dest b onApp m hm =>
    have hfiled := h.refile (q := { w.router.path with rumors := m }) fun x r p hlookup hpending =>
      (hm x r p hlookup hpending).imp_right fun ⟨hp, _⟩ =>
        hp ▸ ⟨nofun, fun k _ _ => S.passes_of_none rfl⟩
    exact { h with
      slots := hfiled.1
      held := hfiled.2
      events := h.allows_append (by simp [Scope.allows]) }
  | release source p isApp hheld =>
    have hfiled := h.refile (q := w.router.path.takeHeld source) fun x r p hlookup hpending =>
      .inl (PathState.kept_takeHeld _ _ hlookup hpending)
    exact { h with
      slots := hfiled.1
      held := hfiled.2
      events := h.allows_append (by simp [Scope.allows]) }
  | session _ k s t hk =>
    refine { h with valid := fun k' hk' => ?_ }
    rcases AList.mem_insert _ |>.mp hk' with rfl | hmem
    · exact hk
    · exact h.valid k' hmem
  | encrypt k s t t' msg keys hs =>
    refine { h with valid := fun k' hk' => h.valid k' ?_ }
    rcases AList.mem_insert _ |>.mp hk' with rfl | hmem
    · exact Assoc.mem_iff_lookup.mpr ⟨_, hs⟩
    · exact hmem
  | sessions _ m hm => exact { h with valid := fun k hk => h.valid k (hm k hk) }
  | buf k held hheld _ =>
    refine { h with bufs := fun k' held' hlookup => ?_ }
    rw [Assoc.lookup_insert_ite] at hlookup
    split at hlookup
    · rename_i heq
      cases hlookup
      rw [heq]
      exact hheld
    · exact h.bufs k' held' hlookup
  | bufs _ m hm =>
    exact { h with bufs := fun k held hlookup => h.bufs k held (hm k held hlookup) }
  | resend k p hp =>
    refine { h with resend := fun x hx => ?_ }
    rcases List.mem_append.mp hx with hx | hx
    · exact h.resend x hx
    · cases List.mem_singleton.mp hx
      exact hp
  | notes es hes =>
    exact { h with events := h.allows_append fun e he => (hes e he).2.1 }
  | deliver _ k p =>
    exact { h with events := h.allows_append (by simp [Scope.allows]) }
  | enqueue k p hp =>
    refine { h with outbox := fun x hx => ?_ }
    rcases List.mem_append.mp hx with hx | hx
    · exact h.outbox x hx
    · cases List.mem_singleton.mp hx
      exact S.passes_of_none hp
  | takeOutbox => exact { h with outbox := fun x hx => absurd hx List.not_mem_nil }
  | requeue =>
    refine { h with outbox := fun x hx => ?_, resend := fun x hx => absurd hx List.not_mem_nil }
    rcases List.mem_append.mp hx with hx | hx
    · exact h.resend x hx
    · exact h.outbox x hx
  | join _ link t hlink hpeer hnew hminted =>
    have hids : (w.links.add link t).ids = w.links.ids ++ [link.id] := w.links.ids_add link t
    have hmem : ∀ id ∈ (w.links.add link t).ids, id ∈ w.links.ids ∨ id = link.id := fun id hid => by
      rwa [hids, List.mem_append, List.mem_singleton] at hid
    refine { h with
      served := fun e he => (List.mem_append.mp he).elim (h.served e) fun he => ?_
      peered := fun e he => (List.mem_append.mp he).elim (h.peered e) fun he => ?_
      minted := fun i hi => (hmem i hi).elim (h.minted i) fun heq => heq ▸ hminted
      nodup := ?_ }
    · cases List.mem_singleton.mp he
      exact hlink
    · cases List.mem_singleton.mp he
      exact hpeer
    · show (w.links.add link t).ids.Nodup
      rw [hids]
      exact h.nodup.append (List.nodup_singleton _) (by simpa using hnew)
  | leave _ id =>
    have hids : (w.links.remove id).ids = w.links.ids.erase id := w.links.ids_remove id
    refine { h with
      served := fun e he => ?_
      peered := fun e he => h.peered e (List.mem_of_mem_eraseP he)
      minted := fun i hi => h.minted i (w.links.ids_remove_subset id hi)
      nodup := ?_ }
    · -- The link that went is in the set no longer.
      have hid : e.id ∈ (w.links.remove id).ids := List.mem_map_of_mem he
      rw [hids, h.nodup.mem_erase_iff] at hid
      show ((w.router.tree.links.erase id).lookup e.id).map LinkState.peer = some e.peer
      rw [AList.lookup_erase_ne hid.1]
      exact h.served e (List.mem_of_mem_eraseP he)
    · show (w.links.remove id).ids.Nodup
      rw [hids]
      exact h.nodup.erase id

end Roots

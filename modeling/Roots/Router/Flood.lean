import Roots.Lib.Flood
import Roots.Router.Broken
import Roots.Router.Filters
import Roots.Router.Settled

/-!
# Roots.Router.Flood

Lookups over a tree of routers. A lookup goes out on the tree: every router that handles one passes
it on to its neighbours whose filters match (`multicast`), though not to the one it came from. In a
tree whose filters are at rest (`Spread`) the filter of a link covers all that is behind it, so a
lookup **is handled once by every router it is for, at most once by the others, and the flood ends**
(`lookup_floods`), in whatever order the frames arrive.

A lookup carries the path of the router it came from, and a path of more than 128 ports is refused
where it is read. So that holds for routers that are at most that deep.
-/

namespace Roots

open Prog RouterM Wire

section

variable [Crypto] {w : World}

/-! ## Where a lookup goes -/

/-- No socket refuses a frame, the links are in the books, and no peer has two. -/
structure World.Cabled (w : World) : Prop where
  writes : ∀ n, w.env.writes n = true
  registered : ∀ e ∈ w.links.entries, e.id ∈ w.router.tree.links
  nodup : w.links.ids.Nodup
  single : ∀ k, (w.links.linksTo k).length ≤ 1

theorem World.Cabled.of_fanned {w' : World} {ids : List LinkId} {ftype : FrameType}
    {payload : Bytes} (h : w.Cabled) (hfan : Fanned ids ftype payload w w') : w'.Cabled where
  writes n := by
    rw [hfan.env]
    exact h.writes n
  registered := by
    rw [hfan.entries, hfan.router]
    exact h.registered
  nodup := by
    rw [hfan.ids_eq]
    exact h.nodup
  single k := by
    rw [hfan.linksTo_eq]
    exact h.single k

/-- Whether the filter of a peer matches. -/
def Router.interested (r : Router) (x k : Key) : Bool :=
  (r.bloom.recv.lookup k).any fun f => f.test x.toList

/-- The peers that `multicast` has something for. -/
def Router.targets (r : Router) (srcKey x : Key) : List Key :=
  (sortKeys r.treePeers).filter fun k => k ≠ srcKey ∧ r.interested x k

/-- There is no link to a key, or one. -/
theorem World.Cabled.linksTo_cases (hw : w.Cabled) (k : Key) :
    w.links.linksTo k = [] ∨ ∃ id, w.links.linksTo k = [id] ∧ ⟨id, k⟩ ∈ w.links.entries := by
  have hlen := hw.single k
  cases hids : w.links.linksTo k with
  | nil => exact .inl rfl
  | cons id ids =>
    rw [hids, List.length_cons] at hlen
    obtain rfl : ids = [] := List.eq_nil_of_length_eq_zero (by omega)
    exact .inr ⟨id, rfl, LinkSet.mem_linksTo.mp (hids ▸ List.mem_singleton_self id)⟩

/-- `writeVia` to a live link. -/
theorem writeVia_fanned (hw : w.Cabled) {id : LinkId} (hlive : id ∈ w.links.ids)
    (ftype : FrameType) (payload : Bytes) :
    ∃ w', writeVia id ftype payload w = (.ok (), w') ∧ Fanned [id] ftype payload w w' := by
  have hsome := LinkSet.isNone_peerOf hlive
  rcases write_cases hlive ftype payload with ⟨w', hrun, hfan⟩ | ⟨hrefused, -⟩
  · refine ⟨w', ?_, hfan⟩
    simp only [write, writeVia, links, run_bind, run_gets, hsome, Bool.false_eq_true,
      if_false] at hrun ⊢
    split at hrun
    · rename_i sent v _
      cases sent with
      | true =>
        cases hrun
        rfl
      | false => cases hrun
    · cases hrun
  · rw [hw.writes] at hrefused
    cases hrefused

/-- The one link to a key is its best. -/
theorem bestLink_single (hw : w.Cabled) (k : Key) :
    bestLink k w = (.ok (w.links.linksTo k).head?, w) := by
  rw [bestLink, router, Prog.gets_bind, links, Prog.gets_bind]
  rcases hw.linksTo_cases k with hids | ⟨id, hids, hmem⟩
  · rw [hids]
    rfl
  · obtain ⟨l, hl⟩ := Assoc.mem_iff_lookup.mp (hw.registered _ hmem)
    have hstates : linkStates w.router.tree [id] = .ok [(id, l)] := by
      simp only [linkStates, hl]
      rfl
    rw [hids, hstates]
    rfl

/-- **`multicast` writes one frame to every target that has a link.** -/
theorem multicast_fanned (hw : w.Cabled) (srcKey toKey : Key) (ftype : FrameType)
    (payload : Bytes) :
    ∃ w', multicast srcKey toKey ftype payload w = (.ok (), w') ∧
      Fanned ((w.router.targets srcKey (xkey toKey)).flatMap w.links.linksTo) ftype payload w
        w' := by
  let wanted (v : World) (k : Key) : Bool := k ≠ srcKey ∧ v.router.interested (xkey toKey) k
  have hloop : ∀ (keys : List Key) (v : World), v.Cabled →
      ∃ v', forEach keys (multicastTo srcKey (xkey toKey) ftype payload) v = (.ok (), v') ∧
        Fanned ((keys.filter (wanted v)).flatMap v.links.linksTo) ftype payload v v' := by
    intro keys
    induction keys with
    | nil => exact fun v _ => ⟨v, rfl, .nil ftype payload v⟩
    | cons k keys ih =>
      intro v hv
      obtain ⟨skipped, hskipped⟩ := ih v hv
      by_cases hskip : k = srcKey ∨ ¬ v.router.interested (xkey toKey) k
      · have hrun : multicastTo srcKey (xkey toKey) ftype payload k v = (.ok (), v) := by
          rw [multicastTo, router, Prog.gets_bind]
          exact congrFun (if_pos hskip) v
        have hdrop : ¬ wanted v k = true := by
          simp only [wanted, decide_eq_true_eq]
          tauto
        rw [List.filter_cons_of_neg (p := wanted v) hdrop]
        exact ⟨skipped, (run_bind_ok hrun).trans hskipped.1, hskipped.2⟩
      · have htake : wanted v k = true := by
          simp only [wanted, decide_eq_true_eq]
          tauto
        have hbest := bestLink_single hv k
        rw [List.filter_cons_of_pos (p := wanted v) htake, List.flatMap_cons]
        rcases hv.linksTo_cases k with hids | ⟨id, hids, hmem⟩
        · rw [hids] at hbest ⊢
          have hrun : multicastTo srcKey (xkey toKey) ftype payload k v = (.ok (), v) := by
            rw [multicastTo, router, Prog.gets_bind]
            exact (congrFun (if_neg hskip) v).trans (run_bind_ok hbest)
          exact ⟨skipped, (run_bind_ok hrun).trans hskipped.1, hskipped.2⟩
        · rw [hids] at hbest ⊢
          have hrun : multicastTo srcKey (xkey toKey) ftype payload k v =
              writeVia id ftype payload v := by
            rw [multicastTo, router, Prog.gets_bind]
            exact (congrFun (if_neg hskip) v).trans (run_bind_ok hbest)
          have hlive : id ∈ v.links.ids := List.mem_map_of_mem hmem
          obtain ⟨v₁, hwrite, hfan⟩ := writeVia_fanned hv hlive ftype payload
          obtain ⟨v', hrest, hfan'⟩ := ih v₁ (hv.of_fanned hfan)
          refine ⟨v', (run_bind_ok (hrun.trans hwrite)).trans hrest, ?_⟩
          have hlinks : v₁.links.linksTo = v.links.linksTo := funext hfan.linksTo_eq
          have hwanted : wanted v₁ = wanted v := by simp only [wanted, hfan.router]
          rw [hlinks, hwanted] at hfan'
          exact hfan.cons hfan'
  rw [multicast, router, Prog.gets_bind]
  exact hloop _ w hw

/-- The other ends of the links of some keys. -/
theorem map_peerOf_flatMap (hw : w.Cabled) (keys : List Key) :
    (keys.flatMap w.links.linksTo).map w.links.peerOf =
      (keys.filter fun k => w.links.linksTo k ≠ []).map some := by
  induction keys with
  | nil => rfl
  | cons k keys ih =>
    rw [List.flatMap_cons, List.map_append, ih]
    rcases hw.linksTo_cases k with hids | ⟨id, hids, hmem⟩
    · simp [hids]
    · have hpeer := LinkSet.peerOf_of_mem hw.nodup hmem
      simp [hids, hpeer]

/-- The lookups that were written on the way from one state to another. -/
def newLookups (w w' : World) : List (LinkId × Bytes) :=
  (w'.events.drop w.events.length).filterMap Event.lookup?

theorem newLookups_fanned {w' : World} {ids : List LinkId} {b : Bytes}
    (h : Fanned ids .pathLookup b w w') : newLookups w w' = ids.map fun id => (id, b) := by
  rw [newLookups, h.events, List.drop_left, List.filterMap_map]
  exact List.filterMap_eq_map.symm ▸ rfl

/-- What was recorded later without a lookup changes nothing. -/
theorem newLookups_of_noLookups {v w' : World} (h : w.events <+: v.events)
    (hlater : NoLookups v.events w'.events) : newLookups w w' = newLookups w v := by
  obtain ⟨es, hes⟩ := h
  obtain ⟨more, hmore, hnone⟩ := hlater
  have hnil : more.filterMap Event.lookup? = [] := List.filterMap_eq_nil_iff.mpr hnone
  rw [newLookups, newLookups, hmore, ← hes, List.append_assoc, List.drop_left, List.drop_left,
    List.filterMap_append, hnil, List.append_nil]

/-! ## A router handles a lookup -/

/-- The answer to a lookup looks nothing up: what waited for it finds its path. -/
theorem acceptNotify_noLookups (notify : PathNotify) (w : World) :
    NoLookups w.events (acceptNotify netSend notify w).2.events := by
  cases hnews : w.router.path.isNews notify with
  | false =>
    rw [acceptNotify_stale hnews]
    exact .refl _
  | true =>
    cases hheld : w.router.path.heldFor notify.source with
    | none =>
      have hheld' : (w.learned notify).router.path.heldFor notify.source = none := hheld
      rw [acceptNotify_of_news hnews, flush, router, Prog.gets_bind, hheld']
      exact .refl _
    | some slot =>
      exact (NoLookups.note rfl _).trans (acceptNotify_releases hnews hheld).events

theorem handleNotify_noLookups (notify : PathNotify) (w : World) :
    NoLookups w.events (handleNotify netSend notify w).2.events := by
  rw [handleNotify, greedy, Prog.gets_bind]
  obtain ⟨⟨next, watermark⟩, hnext⟩ : ∃ hop, w.router.tree.greedyNext w.links w.router.pubkey
    notify.path notify.watermark = hop := ⟨_, rfl⟩
  rw [hnext]
  cases next with
  | some id =>
    have hwrites : (routed w.router.path w.events).Allows
        (writeVia id .pathNotify { notify with watermark }.encode) :=
      writeVia_allows (Writes.wrote (by decide) (by decide)) _ _
    exact ((hwrites w).inv ⟨rfl, .refl _⟩).2
  | none =>
    dsimp only
    rw [router, Prog.gets_bind]
    split
    · exact .refl _
    · exact acceptNotify_noLookups notify w

theorem keepaliveIfIdle_noLookups (conn : LinkId) (w : World) :
    NoLookups w.events (keepaliveIfIdle conn w).2.events := by
  have hidle : (routed w.router.path w.events).Allows (keepaliveIfIdle conn) :=
    keepaliveIfIdle_allows conn
  exact ((hidle w).inv ⟨rfl, .refl _⟩).2

/-- The frames of a lookup from `src`: one for every target that has a link. -/
def World.passesOn (w : World) (src : Key) (lookup : PathLookup) : List (LinkId × Bytes) :=
  ((w.router.targets src (xkey lookup.dest)).flatMap w.links.linksTo).map fun id =>
    (id, lookup.encode)

/-- **`handle_lookup` writes the lookup to every target, and no other lookup.** -/
theorem newLookups_handleLookup (hw : w.Cabled) (src : Key) (lookup : PathLookup) :
    w.events <+: (handleLookup netSend src lookup w).2.events ∧
      newLookups w (handleLookup netSend src lookup w).2 = w.passesOn src lookup := by
  obtain ⟨v, hrun, hfan⟩ := multicast_fanned hw src lookup.dest .pathLookup lookup.encode
  have hbefore : w.events <+: v.events := hfan.events ▸ List.prefix_append _ _
  have hafter : NoLookups v.events (handleLookup netSend src lookup w).2.events := by
    rw [handleLookup, run_bind_ok hrun, router, Prog.gets_bind]
    split
    · exact .refl _
    · rw [unixNow, draw_bind, modifyPath, Prog.modify_bind]
      exact handleNotify_noLookups _ _
  exact ⟨hbefore.trans hafter.isPrefix,
    (newLookups_of_noLookups hbefore hafter).trans (newLookups_fanned hfan)⟩

/-- A frame with a lookup is handled, and the link kept alive. -/
theorem dispatchFrame_lookup {conn : LinkId} {peer : Key} {b : Bytes} {lookup : PathLookup}
    (hpeer : w.links.peerOf conn = some peer) (hlookup : PathLookup.decodeExact b = .ok lookup) :
    dispatchFrame conn .pathLookup b w =
      (handleLookup netSend peer lookup >>= fun _ => keepaliveIfIdle conn) w := by
  rw [dispatchFrame, links, Prog.gets_bind, hpeer]
  simp only [handleFrame, hlookup]
  rfl

theorem newLookups_dispatchFrame (hw : w.Cabled) {conn : LinkId} {peer : Key} {b : Bytes}
    {lookup : PathLookup} (hpeer : w.links.peerOf conn = some peer)
    (hlookup : PathLookup.decodeExact b = .ok lookup) :
    newLookups w (dispatchFrame conn .pathLookup b w).2 = w.passesOn peer lookup := by
  obtain ⟨hbefore, hsent⟩ := newLookups_handleLookup hw peer lookup
  rw [dispatchFrame_lookup hpeer hlookup, ← hsent]
  refine newLookups_of_noLookups hbefore ?_
  refine snd_bind (P := fun v : World =>
    NoLookups (handleLookup netSend peer lookup w).2.events v.events) (.refl _) fun _ v hv _ => ?_
  rw [hv]
  exact keepaliveIfIdle_noLookups conn v

/-- A frame that is not a lookup is dropped. -/
theorem newLookups_refused {conn : LinkId} {peer : Key} {b : Bytes} {e : Exit}
    (hpeer : w.links.peerOf conn = some peer) (hlookup : PathLookup.decodeExact b = .error e) :
    newLookups w (dispatchFrame conn .pathLookup b w).2 = [] := by
  have hrun : dispatchFrame conn .pathLookup b w = keepaliveIfIdle conn w := by
    rw [dispatchFrame, links, Prog.gets_bind, hpeer]
    cases PathLookup.decodeExact_refuses b e hlookup
    simp only [handleFrame, hlookup]
    rfl
  rw [hrun, newLookups_of_noLookups List.prefix_rfl (keepaliveIfIdle_noLookups conn w), newLookups,
    List.drop_length]
  rfl

/-! ## Routers and the frames between them -/

/-- The routers, the lookups on their way with the routers they are between, and the routers that
have handled one. -/
structure Net (V : Type) where
  nodes : V → World
  flight : List (V × V × Bytes)
  handled : List V

variable {V : Type} (key : V → Key)

/-- What `v` wrote is on its way to the other ends of its links. -/
structure Posted (v : V) (w : World) (sent : List (LinkId × Bytes)) (new : List (V × V × Bytes)) :
    Prop where
  sender : ∀ m ∈ new, m.1 = v
  receiver : new.map (fun m => (some (key m.2.1), m.2.2)) =
    sent.map fun x => (w.links.peerOf x.1, x.2)

variable [DecidableEq V]

/-- A lookup arrives. It is read and handled, or refused. What the router writes of lookups while
it dispatches the frame is on its way after that. -/
inductive Net.Step : Net V → Net V → Prop where
  | handle {nodes : V → World} {before after : List (V × V × Bytes)} {handled : List V} {u v : V}
      {b : Bytes} {conn : LinkId} {lookup : PathLookup} {new : List (V × V × Bytes)} :
      (nodes v).links.peerOf conn = some (key u) →
      PathLookup.decodeExact b = .ok lookup →
      -- `v` counts as having handled it because this is what the dispatch runs.
      dispatchFrame conn .pathLookup b (nodes v) =
        (handleLookup netSend (key u) lookup >>= fun _ => keepaliveIfIdle conn) (nodes v) →
      Posted key v (nodes v)
        (newLookups (nodes v) (dispatchFrame conn .pathLookup b (nodes v)).2) new →
      Net.Step ⟨nodes, before ++ (u, v, b) :: after, handled⟩
        ⟨Function.update nodes v (dispatchFrame conn .pathLookup b (nodes v)).2,
          before ++ after ++ new, handled ++ [v]⟩
  | refuse {nodes : V → World} {before after : List (V × V × Bytes)} {handled : List V} {u v : V}
      {b : Bytes} {conn : LinkId} {e : Exit} {new : List (V × V × Bytes)} :
      (nodes v).links.peerOf conn = some (key u) →
      PathLookup.decodeExact b = .error e →
      Posted key v (nodes v)
        (newLookups (nodes v) (dispatchFrame conn .pathLookup b (nodes v)).2) new →
      Net.Step ⟨nodes, before ++ (u, v, b) :: after, handled⟩
        ⟨Function.update nodes v (dispatchFrame conn .pathLookup b (nodes v)).2,
          before ++ after ++ new, handled⟩

inductive Net.Steps : Nat → Net V → Net V → Prop where
  | refl (n : Net V) : Net.Steps 0 n n
  | step {k : Nat} {n n' n'' : Net V} :
      Net.Steps k n n' → Net.Step key n' n'' → Net.Steps (k + 1) n n''

/-- The lookup that `send_lookup` makes. -/
def World.ownLookup (w : World) (dest : Key) : PathLookup :=
  { source := w.router.pubkey, dest, «from» := w.router.coords }

theorem World.sendLookup_eq (w : World) (dest : Key) :
    sendLookup netSend dest w = handleLookup netSend w.router.pubkey (w.ownLookup dest) w := rfl

/-- `s` has made a lookup, and handled it as the first. What it wrote of lookups is on its way. -/
structure Net.Begins (world : V → World) (s : V) (dest : Key) (n : Net V) : Prop where
  nodes : n.nodes = Function.update world s (sendLookup netSend dest (world s)).2
  handled : n.handled = [s]
  posted : Posted key s (world s)
    (newLookups (world s) (sendLookup netSend dest (world s)).2) n.flight

/-! ## Trees at rest -/

/-- The routers are those of the tree: one link for every edge, and none besides; the parents of a
router and of its neighbours are known to it; and the filters are at rest. `tracked` is what a
router with at most 64 peers has. -/
structure Spread (T : PortTree V UInt64) (world : V → World) : Prop where
  key_injective : Function.Injective key
  pubkey : ∀ v, (world v).router.pubkey = key v
  neighbour : ∀ v, ∀ e ∈ (world v).links.entries, ∃ u, e.peer = key u ∧ T.Adj v u
  linked : ∀ v u, T.Adj v u → ((world v).links.linksTo (key u)).length = 1
  parents : ∀ v u, u = v ∨ T.Adj v u → ∃ info,
    (world v).router.tree.infos.lookup (key u) = some info ∧ info.parent = key (T.parent u)
  tracked : ∀ v u, T.Adj v u → key u ∈ (world v).router.bloom.onTree
  still : ∀ v, (world v).Still
  /-- A filter that was sent is the one that was received. -/
  exchanged : ∀ v u, T.Adj v u → (world v).router.bloom.recv.lookup (key u) =
    (world u).router.bloom.send.lookup (key v)
  writes : ∀ v n, (world v).env.writes n = true
  registered : ∀ v, ∀ e ∈ (world v).links.entries, e.id ∈ (world v).router.tree.links
  nodup : ∀ v, (world v).links.ids.Nodup

namespace Spread

variable {key} {T : PortTree V UInt64} {world : V → World} (h : Spread key T world)

include h

omit [DecidableEq V] in
theorem cabled (v : V) : (world v).Cabled where
  writes := h.writes v
  registered := h.registered v
  nodup := h.nodup v
  single k := by
    by_cases hk : (world v).links.linksTo k = []
    · rw [hk]
      exact Nat.zero_le _
    · obtain ⟨e, he, rfl⟩ := LinkSet.hasPeer_iff.mp (LinkSet.linksTo_ne_nil.mp hk)
      obtain ⟨u, hu, hadj⟩ := h.neighbour v e he
      rw [hu]
      exact (h.linked v u hadj).le

omit [DecidableEq V] in
theorem linked_iff {v u : V} : (world v).links.linksTo (key u) ≠ [] ↔ T.Adj v u := by
  constructor
  · intro hne
    obtain ⟨e, he, hpeer⟩ := LinkSet.hasPeer_iff.mp (LinkSet.linksTo_ne_nil.mp hne)
    obtain ⟨u', hu', hadj⟩ := h.neighbour v e he
    rwa [h.key_injective (hpeer.symm.trans hu')]
  · intro hadj hnil
    have hlen := h.linked v u hadj
    rw [hnil] at hlen
    cases hlen

omit [DecidableEq V] in
theorem exists_conn {v u : V} (hadj : T.Adj v u) :
    ∃ conn, (world v).links.peerOf conn = some (key u) := by
  obtain ⟨conn, hconn⟩ := List.exists_mem_of_ne_nil _ (h.linked_iff.mpr hadj)
  exact ⟨conn, LinkSet.peerOf_of_mem (h.nodup v) (LinkSet.mem_linksTo.mp hconn)⟩

omit [DecidableEq V] in
/-- The neighbours are on the tree. -/
theorem onTree {v u : V} (hadj : T.Adj v u) :
    (world v).router.bloom.onTree.lookup (key u) = some true := by
  obtain ⟨i, hi, hparent⟩ := h.parents v v (.inl rfl)
  obtain ⟨info, hinfo, hparent'⟩ := h.parents v u (.inr hadj)
  have hself : (world v).router.tree.infos.lookup (world v).router.pubkey = some i := by
    rw [h.pubkey, hi]
  rw [(h.still v).onTree hself (h.tracked v u hadj), Router.isOnTree, hinfo, hparent, h.pubkey]
  rcases hadj with ⟨-, rfl⟩ | ⟨-, rfl⟩
  · simp
  · simp [hparent']

/-! ## Filters cover what is behind them -/

omit [DecidableEq V] in
/-- **The filter of a neighbour matches every router behind it.** -/
theorem interested {t x y : V} (hadj : T.Adj x y) (hcloser : T.dist y t + 1 = T.dist x t) :
    (world x).router.interested (xkey (key t)) (key y) = true := by
  induction hn : T.dist y t using Nat.strong_induction_on generalizing x y with
  | _ n ih =>
    obtain ⟨b, hsend, hcovers⟩ := (h.still y).covers (h.onTree hadj.symm)
    rw [Router.interested, h.exchanged x y hadj, hsend, Option.any_some]
    by_cases hyt : y = t
    · subst hyt
      have hown := hcovers.own
      rwa [h.pubkey] at hown
    · -- the next router on the way to `t` is not `x`
      obtain ⟨z, hadj', hcloser'⟩ := T.exists_adj_dist hyt
      have hzx : z ≠ x := by
        rintro rfl
        omega
      have hnext := ih (T.dist z t) (by omega) hadj' hcloser' rfl
      rw [Router.interested, Option.any_eq_true] at hnext
      obtain ⟨f, hf, htest⟩ := hnext
      exact hcovers.heard (key z) f _ (h.onTree hadj') (fun heq => hzx (h.key_injective heq)) hf
        htest

/-! ## The flood -/

omit [DecidableEq V] in
/-- The receivers of what `v` passes on. -/
theorem posted_keys {v : V} {src : Key} {lookup : PathLookup} {new : List (V × V × Bytes)}
    (hposted : Posted key v (world v) ((world v).passesOn src lookup) new) :
    (new.map fun m => key m.2.1) =
        ((world v).router.targets src (xkey lookup.dest)).filter
          (fun k => (world v).links.linksTo k ≠ []) ∧
      ∀ m ∈ new, m.2.2 = lookup.encode := by
  have hreceiver := hposted.receiver
  rw [World.passesOn, List.map_map] at hreceiver
  constructor
  · have hkeys := congrArg (List.map Prod.fst) hreceiver
    rw [List.map_map, List.map_map] at hkeys
    have hpeers := map_peerOf_flatMap (h.cabled v) ((world v).router.targets src (xkey lookup.dest))
    have hsome : (new.map fun m => key m.2.1).map some =
        (((world v).router.targets src (xkey lookup.dest)).filter
          (fun k => (world v).links.linksTo k ≠ [])).map some := by
      rw [← hpeers, List.map_map]
      exact hkeys
    exact List.map_injective_iff.mpr (Option.some_injective _) hsome
  · intro m hm
    have hmem := List.mem_map_of_mem (f := fun m => (some (key m.2.1), m.2.2)) hm
    rw [hreceiver] at hmem
    obtain ⟨id, -, heq⟩ := List.mem_map.mp hmem
    exact (congrArg Prod.snd heq).symm

omit [DecidableEq V] in
theorem passesOn {u v : V} {lookup : PathLookup} {new : List (V × V × Bytes)}
    (hposted : Posted key v (world v) ((world v).passesOn (key u) lookup) new) :
    PassesOn T (fun x y => (world x).router.interested (xkey lookup.dest) (key y) = true) u v
      (new.map fun m => m.2.1) := by
  obtain ⟨hkeys, -⟩ := h.posted_keys hposted
  have hmem : ∀ y, y ∈ (new.map fun m => m.2.1) ↔
      key y ∈ (world v).router.targets (key u) (xkey lookup.dest) ∧ T.Adj v y := by
    intro y
    rw [← h.linked_iff, ← List.mem_map_of_injective h.key_injective, List.map_map]
    show key y ∈ (new.map fun m => key m.2.1) ↔ _
    rw [hkeys, List.mem_filter, decide_eq_true_eq]
  have htarget : ∀ k, k ∈ (world v).router.targets (key u) (xkey lookup.dest) ↔
      (world v).router.bloom.onTree.lookup k = some true ∧ k ≠ key u ∧
        (world v).router.interested (xkey lookup.dest) k = true := by
    intro k
    rw [Router.targets, List.mem_filter, mem_sortKeys, mem_treePeers, decide_eq_true_eq]
  refine ⟨fun y hy => ((hmem y).mp hy).2, fun y hy => ?_, ?_, fun y hadj hwants hne => ?_⟩
  · rintro rfl
    exact ((htarget _).mp ((hmem y).mp hy).1).2.1 rfl
  · have hnodup : ((new.map fun m => m.2.1).map key).Nodup := by
      rw [List.map_map]
      show (new.map fun m => key m.2.1).Nodup
      rw [hkeys]
      exact ((nodup_sortKeys (nodup_treePeers _)).filter _).filter _
    exact hnodup.of_map key
  · refine (hmem y).mpr ⟨(htarget _).mpr ⟨h.onTree hadj, ?_, hwants⟩, hadj⟩
    exact fun heq => hne (h.key_injective heq)

omit [DecidableEq V] in
theorem newLookups_sendLookup (v : V) (dest : Key) :
    newLookups (world v) (sendLookup netSend dest (world v)).2 =
      (world v).passesOn (world v).router.pubkey ((world v).ownLookup dest) := by
  rw [World.sendLookup_eq]
  exact (newLookups_handleLookup (h.cabled v) _ _).2

omit [DecidableEq V] in
/-- Every frame that is written has a receiver. -/
theorem exists_posted (v : V) (src : Key) (lookup : PathLookup) :
    ∃ new, Posted key v (world v) ((world v).passesOn src lookup) new := by
  have hend : ∀ x ∈ (world v).passesOn src lookup, ∃ m : V × V × Bytes, m.1 = v ∧
      (some (key m.2.1), m.2.2) = ((world v).links.peerOf x.1, x.2) := by
    intro x hx
    obtain ⟨id, hid, rfl⟩ := List.mem_map.mp hx
    obtain ⟨k, -, hlink⟩ := List.mem_flatMap.mp hid
    have hmem := LinkSet.mem_linksTo.mp hlink
    obtain ⟨y, hy, -⟩ := h.neighbour v _ hmem
    refine ⟨(v, y, lookup.encode), rfl, ?_⟩
    rw [LinkSet.peerOf_of_mem (h.nodup v) hmem, ← hy]
  have : Inhabited V := ⟨v⟩
  choose! f hf using hend
  refine ⟨((world v).passesOn src lookup).map f, ?_, ?_⟩
  · intro m hm
    obtain ⟨x, hx, rfl⟩ := List.mem_map.mp hm
    exact (hf x hx).1
  · rw [List.map_map]
    exact List.map_congr_left fun x hx => (hf x hx).2

end Spread

/-- The net is a flood of one lookup, and a router that has not handled it is as it was. -/
structure Spreads (world : V → World) (lookup : PathLookup) (n : Net V) (f : Flood V) : Prop where
  flight : f.flight = n.flight.map fun m => (m.1, m.2.1)
  handled : f.handled = n.handled
  payload : ∀ m ∈ n.flight, m.2.2 = lookup.encode
  fresh : ∀ v ∉ n.handled, n.nodes v = world v

section Run

variable {key} {T : PortTree V UInt64} {world : V → World} (h : Spread key T world) {s : V}
  {lookup : PathLookup} (hportable : Portable lookup.from) {n n' : Net V} {f : Flood V}

omit [Crypto] [DecidableEq V] in
theorem map_posted {v : V} {new : List (V × V × Bytes)} (hsender : ∀ m ∈ new, m.1 = v) :
    (new.map fun m => (m.1, m.2.1)) = (new.map fun m => m.2.1).map fun y => (v, y) := by
  rw [List.map_map]
  exact List.map_congr_left fun m hm => by rw [hsender m hm]; rfl

include h hportable

/-- A step of the net is a step of the flood. -/
theorem Spreads.step (hspreads : Spreads world lookup n f) (haway : Away T s f)
    (hstep : Net.Step key n n') :
    ∃ f', FloodStep T (fun x y => (world x).router.interested (xkey lookup.dest) (key y) = true)
      f f' ∧ Spreads world lookup n' f' := by
  obtain ⟨flight, handled⟩ := f
  obtain ⟨rfl, rfl, hpayload, hfresh⟩ := hspreads
  cases hstep with
  | @handle nodes before after handled u v b conn lookup' new hconn hdecode hrun hposted =>
    obtain rfl : b = lookup.encode :=
      hpayload (u, v, b) (List.mem_append_right _ List.mem_cons_self)
    rw [PathLookup.decodeExact_encode lookup hportable] at hdecode
    cases hdecode
    have hv : v ∉ handled := by
      intro hv
      refine List.disjoint_of_nodup_append haway.nodup hv ?_
      rw [List.map_map]
      exact List.mem_map_of_mem (f := fun m : V × V × Bytes => m.2.1)
        (List.mem_append_right _ List.mem_cons_self)
    have hworld := hfresh v hv
    simp only at hworld
    rw [hworld] at hconn hposted
    rw [newLookups_dispatchFrame (h.cabled v) hconn
      (PathLookup.decodeExact_encode lookup hportable)] at hposted
    refine ⟨⟨(before.map fun m => (m.1, m.2.1)) ++ (after.map fun m => (m.1, m.2.1)) ++
      (new.map fun m => m.2.1).map fun y => (v, y), handled ++ [v]⟩, ?_, ?_⟩
    · simp only [List.map_append, List.map_cons]
      exact .deliver (h.passesOn hposted)
    · refine ⟨?_, rfl, fun m hm => ?_, fun x hx => ?_⟩
      · rw [← map_posted hposted.sender, ← List.map_append, ← List.map_append]
      · rcases List.mem_append.mp hm with hm | hm
        · refine hpayload m ?_
          simp only [List.mem_append, List.mem_cons] at hm ⊢
          tauto
        · exact (h.posted_keys hposted).2 m hm
      · have hne : x ≠ v := by
          rintro rfl
          exact hx (List.mem_append_right _ (List.mem_singleton_self x))
        show Function.update nodes v _ x = _
        rw [Function.update_of_ne hne]
        exact hfresh x fun hmem => hx (List.mem_append_left _ hmem)
  | @refuse nodes before after handled u v b conn e new hconn hdecode hposted =>
    obtain rfl : b = lookup.encode :=
      hpayload (u, v, b) (List.mem_append_right _ List.mem_cons_self)
    rw [PathLookup.decodeExact_encode lookup hportable] at hdecode
    cases hdecode

/-- The run lemma. -/
theorem Spreads.steps {k : Nat} (hspreads : Spreads world lookup n f) (haway : Away T s f)
    (hsteps : Net.Steps key k n n') :
    ∃ f', FloodSteps T (fun x y => (world x).router.interested (xkey lookup.dest) (key y) = true)
      k f f' ∧ Spreads world lookup n' f' := by
  induction hsteps with
  | refl => exact ⟨f, .refl f, hspreads⟩
  | step _ hstep ih =>
    obtain ⟨f₁, hsteps, hspreads₁⟩ := ih hspreads
    obtain ⟨f', hlast, hspreads'⟩ := hspreads₁.step h hportable (hsteps.away haway) hstep
    exact ⟨f', hsteps.step hlast, hspreads'⟩

/-- A frame that is on its way can be delivered. -/
theorem Spreads.progress (hspreads : Spreads world lookup n f) (haway : Away T s f)
    (hflight : n.flight ≠ []) : ∃ n', Net.Step key n n' := by
  obtain ⟨nodes, flight, handled⟩ := n
  obtain ⟨⟨u, v, b⟩, rest, rfl⟩ := List.exists_cons_of_ne_nil hflight
  have hmem : (u, v) ∈ f.flight := by
    rw [hspreads.flight]
    exact List.mem_cons_self
  obtain ⟨hu, hadj, -⟩ := haway.flight _ hmem
  have hv : v ∉ handled := by
    intro hv
    rw [← show f.handled = handled from hspreads.handled] at hv
    exact List.disjoint_of_nodup_append haway.nodup hv (List.mem_map_of_mem (f := Prod.snd) hmem)
  have hworld : nodes v = world v := hspreads.fresh v hv
  obtain ⟨conn, hpeer⟩ := h.exists_conn hadj.symm
  obtain rfl : b = lookup.encode := hspreads.payload _ List.mem_cons_self
  have hdecode := PathLookup.decodeExact_encode lookup hportable
  obtain ⟨new, hnew⟩ := h.exists_posted v (key u) lookup
  rw [← newLookups_dispatchFrame (h.cabled v) hpeer hdecode, ← hworld] at hnew
  rw [← hworld] at hpeer
  rw [← List.nil_append ((u, v, lookup.encode) :: rest)]
  exact ⟨_, .handle hpeer hdecode (dispatchFrame_lookup hpeer hdecode) hnew⟩

end Run

/-- **A lookup floods the tree.** It begins, and whatever frames arrive in whatever order, no router
handles it twice, fewer than all routers get a frame, a frame that is on its way can arrive, and
when none is left every router it is for has handled it once. -/
theorem lookup_floods [Fintype V] {T : PortTree V UInt64} {world : V → World}
    (h : Spread key T world) (s : V) (dest : Key) (hpath : Portable (world s).router.coords) :
    (∃ n₀, Net.Begins key world s dest n₀) ∧
      ∀ n₀ n k, Net.Begins key world s dest n₀ → Net.Steps key k n₀ n →
        (∀ v, n.handled.count v ≤ 1) ∧ k < Fintype.card V ∧
        (n.flight ≠ [] → ∃ n', Net.Step key n n') ∧
        (n.flight = [] → ∀ v, xkey (key v) = xkey dest → n.handled.count v = 1) := by
  obtain ⟨lookup, hlookup⟩ : ∃ lookup, lookup = (world s).ownLookup dest := ⟨_, rfl⟩
  have hportable : Portable lookup.from := hlookup ▸ hpath
  have hdest : lookup.dest = dest := by rw [hlookup]; rfl
  constructor
  · obtain ⟨new, hnew⟩ := h.exists_posted s (world s).router.pubkey ((world s).ownLookup dest)
    rw [← h.newLookups_sendLookup] at hnew
    exact ⟨⟨_, new, [s]⟩, rfl, rfl, hnew⟩
  intro n₀ n k hbegins hsteps
  have hposted := hbegins.posted
  rw [h.newLookups_sendLookup, ← hlookup, h.pubkey] at hposted
  have hpass := h.passesOn hposted
  have hspreads : Spreads world lookup n₀
      ⟨(n₀.flight.map fun m => m.2.1).map fun y => (s, y), [s]⟩ := by
    refine ⟨(map_posted hposted.sender).symm, hbegins.handled.symm, (h.posted_keys hposted).2,
      fun v hv => ?_⟩
    rw [hbegins.handled, List.mem_singleton] at hv
    rw [hbegins.nodes, Function.update_of_ne hv]
  have haway := Away.init hpass
  obtain ⟨f, hflood, hspreads'⟩ := hspreads.steps h hportable haway hsteps
  have haway' := hflood.away haway
  have hnodup : n.handled.Nodup := hspreads'.handled ▸ (List.nodup_append.mp haway'.nodup).1
  refine ⟨fun v => List.nodup_iff_count_le_one.mp hnodup v, hflood.length_lt haway,
    hspreads'.progress h hportable haway', fun hnone v hv => ?_⟩
  have hwants : ∀ x y, T.Adj x y → T.dist y v + 1 = T.dist x v →
      (world x).router.interested (xkey lookup.dest) (key y) = true := by
    intro x y hadj hcloser
    rw [hdest, ← hv]
    exact h.interested hadj hcloser
  have hstart : Underway T v
      ⟨[] ++ (n₀.flight.map fun m => m.2.1).map fun y => (s, y), [] ++ [s]⟩ :=
    underway_passOn hwants hpass (.inl rfl)
  rcases hflood.underway hwants hstart with hhandled | ⟨m, hm, -⟩
  · exact List.count_eq_one_of_mem hnodup (hspreads'.handled ▸ hhandled)
  · rw [hspreads'.flight, hnone] at hm
    cases hm

end

/-! ## A chain of routers -/

section Tables

variable {ι κ α : Type} [DecidableEq κ]

/-- A table of what some nodes have. -/
def tableOf (nodes : List ι) (key : ι → κ) (f : ι → α) : Assoc κ α :=
  nodes.foldl (fun t j => t.insert (key j) (f j)) ∅

theorem lookup_tableOf {nodes : List ι} {key : ι → κ} (f : ι → α)
    (hinj : ∀ i ∈ nodes, ∀ j ∈ nodes, key i = key j → i = j) {j : ι} (hj : j ∈ nodes) :
    (tableOf nodes key f).lookup (key j) = some (f j) := by
  have hfold : ∀ (l : List ι) (t : Assoc κ α), (∀ i ∈ l, i ∈ nodes) →
      (j ∈ l ∨ t.lookup (key j) = some (f j)) →
      (l.foldl (fun t j => t.insert (key j) (f j)) t).lookup (key j) = some (f j) := by
    intro l
    induction l with
    | nil => exact fun t _ h => h.resolve_left List.not_mem_nil
    | cons i l ih =>
      intro t hl h
      refine ih _ (fun i' hi' => hl i' (List.mem_cons_of_mem i hi')) ?_
      rw [Assoc.lookup_insert_ite]
      by_cases hkey : key j = key i
      · rw [if_pos hkey, hinj j hj i (hl i List.mem_cons_self) hkey]
        exact .inr rfl
      · rw [if_neg hkey]
        rcases h with h | h
        · rcases List.mem_cons.mp h with rfl | h
          · exact absurd rfl hkey
          · exact .inl h
        · exact .inr h
  exact hfold nodes ∅ (fun _ h => h) (.inl hj)

theorem mem_of_mem_tableOf {nodes : List ι} {key : ι → κ} {f : ι → α} {k : κ}
    (h : k ∈ tableOf nodes key f) : ∃ j ∈ nodes, key j = k := by
  have hfold : ∀ (l : List ι) (t : Assoc κ α), (∀ i ∈ l, i ∈ nodes) →
      k ∈ l.foldl (fun t j => t.insert (key j) (f j)) t → k ∈ t ∨ ∃ j ∈ nodes, key j = k := by
    intro l
    induction l with
    | nil => exact fun t _ h => .inl h
    | cons i l ih =>
      intro t hl h
      rcases ih _ (fun i' hi' => hl i' (List.mem_cons_of_mem i hi')) h with h | h
      · rcases (AList.mem_insert t).mp h with rfl | h
        · exact .inr ⟨i, hl i List.mem_cons_self, rfl⟩
        · exact .inl h
      · exact .inr h
  exact (hfold nodes ∅ (fun _ h => h) h).resolve_left (AList.notMem_empty k)

end Tables

section

attribute [local instance] Sample.lenient

/-- A filter that matches everything. -/
def fullFilter : BloomFilter := ⟨.replicate 128 0xffffffffffffffff⟩

theorem merge_fullFilter (b : BloomFilter) : b.merge fullFilter = fullFilter := by
  have hor : ∀ x : UInt64, x ||| 0xffffffffffffffff = 0xffffffffffffffff :=
    fun x => UInt64.toBitVec_inj.mp BitVec.or_allOnes
  have hzip : ∀ (ws : List UInt64), List.zipWith (· ||| ·) ws
      (List.replicate ws.length 0xffffffffffffffff) =
    List.replicate ws.length 0xffffffffffffffff := by
    intro ws
    induction ws with
    | nil => rfl
    | cons x ws ih => rw [List.length_cons, List.replicate_succ, List.zipWith_cons_cons, ih, hor]
  obtain ⟨⟨ws, hws⟩⟩ := b
  have hws' := hzip ws
  rw [hws] at hws'
  exact congrArg BloomFilter.mk (Subtype.ext hws')

/-- Books in which every filter is full are at rest. -/
theorem still_of_full {w : World} {i : Info}
    (hi : w.router.tree.infos.lookup w.router.pubkey = some i)
    (honTree : ∀ p ∈ w.router.bloom.onTree,
      w.router.bloom.onTree.lookup p = some (w.router.isOnTree i.parent p))
    (hsend : ∀ p, w.router.bloom.onTree.lookup p = some true →
      w.router.bloom.send.lookup p = some fullFilter) : w.Still := by
  obtain ⟨v, hv⟩ : ∃ v : World, v =
      { w with router.bloom := w.router.bloomFix, tick := w.tick + 1 } := ⟨_, rfl⟩
  have hmarks : ∀ k, v.router.bloom.onTree.lookup k = w.router.bloom.onTree.lookup k := by
    intro k
    rw [hv]
    refine (lookup_onTree_bloomFix hi k).trans ?_
    cases hk : w.router.bloom.onTree.lookup k with
    | none => rfl
    | some on => rw [← hk, honTree k (Assoc.mem_iff_lookup.mpr ⟨on, hk⟩)]; rfl
  have hfilters : ∀ k, v.router.bloom.send.lookup k = w.router.bloom.send.lookup k := by
    intro k
    rw [hv]
    refine lookup_send_bloomFix fun i' hi' hon => ?_
    rw [hi, Option.some_inj] at hi'
    rw [honTree k (Assoc.mem_iff_lookup.mpr ⟨_, hon⟩), Option.some_inj, hi'] at hon
    exact hon
  have hloop : ∀ peers : List Key, (∀ pk ∈ peers, v.router.bloom.send.lookup pk = some fullFilter) →
      forEach peers advertise v = (.ok (), v) := by
    intro peers
    induction peers with
    | nil => exact fun _ => rfl
    | cons pk peers ih =>
      intro hpeers
      have hfor : v.router.bloomFor pk = fullFilter := by
        simp only [Router.bloomFor, hpeers pk List.mem_cons_self, merge_fullFilter]
      rcases advertise_router pk v with ⟨-, hrun⟩ | ⟨hne, -⟩
      · exact (run_bind_ok hrun).trans (ih fun k hk => hpeers k (List.mem_cons_of_mem pk hk))
      · rw [hfor] at hne
        exact absurd (hpeers pk List.mem_cons_self) hne
  have hrun : bloomMaintenance w = (.ok (), v) := by
    rw [← hloop ((w.env.order w.tick).run v.router.treePeers) fun pk hpk => ?_, hv]
    · rfl
    · have hmem := ((w.env.order w.tick).perm _).mem_iff.mp hpk
      rw [mem_treePeers, hmarks] at hmem
      rw [hfilters, hsend pk hmem]
  intro k
  rw [hrun]
  exact ⟨hmarks k, hfilters k⟩

/-- The routers `0` to `n`, each below the one before. -/
def chain (n : Nat) : PortTree (Fin (n + 1)) UInt64 where
  root := 0
  parent v := ⟨v - 1, by omega⟩
  port _ := 1
  depth v := v
  parent_root := rfl
  depth_root := rfl
  depth_parent v h := by
    have hv : v.val ≠ 0 := fun hzero => h (Fin.ext hzero)
    show v.val = v.val - 1 + 1
    omega
  port_inj u v hu hv hparent _ := by
    have hu' : u.val ≠ 0 := fun hzero => hu (Fin.ext hzero)
    have hv' : v.val ≠ 0 := fun hzero => hv (Fin.ext hzero)
    have hval := congrArg Fin.val hparent
    exact Fin.ext (by simp only at hval; omega)

def chainKey (i : Nat) : Key := Sample.smallKey (UInt8.ofNat (i + 1))

theorem chainKey_inj {i j : Nat} (hi : i < 255) (hj : j < 255) (h : chainKey i = chainKey j) :
    i = j := by
  have hlast := congrArg (fun k : Key => k.toList.getLast?) h
  have hbyte : UInt8.ofNat (i + 1) = UInt8.ofNat (j + 1) := by
    simpa [chainKey, Sample.smallKey, List.Vector.toList] using hlast
  have hnat := congrArg UInt8.toNat hbyte
  simp only [UInt8.toNat_ofNat'] at hnat
  omega

def chainInfo (i : Nat) : Info where
  parent := chainKey (i - 1)
  res := ⟨⟨1, 0⟩, 1, .replicate 64 0⟩
  sig := .replicate 64 0

/-- The neighbours of a router of the chain. -/
def chainNear (n i : Nat) : List Nat :=
  (if i = 0 then [] else [i - 1]) ++ if i < n then [i + 1] else []

/-- A router of the chain, with full filters. -/
def chainWorld (n i : Nat) : World :=
  let w := World.init (chainKey i) (.even 1)
  { w with
    links.entries := (chainNear n i).map fun j => ⟨j, chainKey j⟩
    router.tree.infos := tableOf (List.range (n + 1)) chainKey chainInfo
    router.tree.links :=
      tableOf (chainNear n i) id fun j => ⟨chainKey j, true, 0, none, none, 0, UInt64.ofNat j⟩
    router.bloom.send := tableOf (chainNear n i) chainKey fun _ => fullFilter
    router.bloom.recv := tableOf (chainNear n i) chainKey fun _ => fullFilter
    router.bloom.onTree := tableOf (chainNear n i) chainKey fun _ => true }

theorem mem_chainNear {n i j : Nat} (hi : i ≤ n) :
    j ∈ chainNear n i ↔ (i = j + 1 ∨ j = i + 1) ∧ j ≤ n := by
  rw [chainNear, List.mem_append]
  by_cases hzero : i = 0 <;> by_cases hlast : i < n <;> simp [hzero, hlast] <;> omega

theorem chain_adj {n : Nat} (u v : Fin (n + 1)) :
    (chain n).Adj u v ↔ v.val ∈ chainNear n u := by
  have hu := u.isLt
  have hv := v.isLt
  rw [mem_chainNear (by omega)]
  simp only [PortTree.Adj, chain, Fin.ext_iff, ne_eq]
  show ((u.val ≠ 0 ∧ u.val - 1 = v.val) ∨ v.val ≠ 0 ∧ v.val - 1 = u.val) ↔ _
  omega

theorem chainNear_lt {n i j : Nat} (hn : n < 254) (hi : i ≤ n) (hj : j ∈ chainNear n i) :
    j < 255 := by
  have := ((mem_chainNear hi).mp hj).2
  omega

theorem nodup_chainNear (n i : Nat) : (chainNear n i).Nodup := by
  rw [chainNear]
  by_cases hzero : i = 0
  · by_cases hlast : 0 < n <;> simp [hzero, hlast]
  · by_cases hlast : i < n
    · have hne : i - 1 ≠ i + 1 := by omega
      simp [hzero, hlast, hne]
    · simp [hzero, hlast]

section Chain

variable {n : Nat} (hn : n < 254) (v u : Fin (n + 1))

/-- The books of a router are about its neighbours. -/
theorem exists_of_mem_chainTable {α : Type} {f : Nat → α} {k : Key}
    (h : k ∈ tableOf (chainNear n v) chainKey f) :
    ∃ u : Fin (n + 1), k = chainKey u ∧ (chain n).Adj v u := by
  have hv : v.val ≤ n := Nat.lt_succ_iff.mp v.isLt
  obtain ⟨j, hj, rfl⟩ := mem_of_mem_tableOf h
  have hle := ((mem_chainNear hv).mp hj).2
  exact ⟨⟨j, by omega⟩, rfl, (chain_adj v _).mpr hj⟩

theorem chain_coords : (chain n).coords v = List.replicate v 1 := by
  induction v using (chain n).inductionOn with
  | hroot => rfl
  | hstep v hv ih =>
    have hpos : v.val ≠ 0 := fun hzero => hv (Fin.ext hzero)
    rw [(chain n).coords_of_ne hv, ih]
    show List.replicate (v.val - 1) 1 ++ List.replicate 1 1 = _
    rw [List.replicate_append_replicate]
    congr 1
    omega

include hn

theorem lookup_chainInfos (i : Nat) :
    (chainWorld n i).router.tree.infos.lookup (chainKey u) = some (chainInfo u) := by
  refine lookup_tableOf _ (fun i hi j hj h => chainKey_inj ?_ ?_ h) (List.mem_range.mpr u.isLt)
  · have := List.mem_range.mp hi
    omega
  · have := List.mem_range.mp hj
    omega

theorem lookup_chainTable {α : Type} (f : Nat → α) (hadj : (chain n).Adj v u) :
    (tableOf (chainNear n v) chainKey f).lookup (chainKey u) = some (f u) := by
  have hv : v.val ≤ n := Nat.lt_succ_iff.mp v.isLt
  refine lookup_tableOf f (fun i hi j hj h => ?_) ((chain_adj v u).mp hadj)
  exact chainKey_inj (chainNear_lt hn hv hi) (chainNear_lt hn hv hj) h

theorem chain_isOnTree (hadj : (chain n).Adj v u) :
    (chainWorld n v).router.isOnTree (chainInfo v).parent (chainKey u) = true := by
  have hv : v.val ≤ n := Nat.lt_succ_iff.mp v.isLt
  rw [Router.isOnTree, lookup_chainInfos hn u]
  simp only [Option.any_some, decide_eq_true_eq]
  rcases ((mem_chainNear hv).mp ((chain_adj v u).mp hadj)).1 with hup | hdown
  · left
    show chainKey (v.val - 1) = chainKey u.val
    congr 1
    omega
  · right
    show chainKey (u.val - 1) = chainKey v.val
    congr 1
    omega

theorem chain_still : (chainWorld n v).Still := by
  refine still_of_full (lookup_chainInfos hn v v) (fun p hp => ?_) fun p hp => ?_
  · obtain ⟨u, rfl, hadj⟩ := exists_of_mem_chainTable v hp
    rw [chain_isOnTree hn v u hadj]
    exact lookup_chainTable hn v u _ hadj
  · obtain ⟨u, rfl, hadj⟩ := exists_of_mem_chainTable v (Assoc.mem_iff_lookup.mpr ⟨_, hp⟩)
    exact lookup_chainTable hn v u _ hadj

theorem chain_linksTo (hadj : (chain n).Adj v u) :
    ((chainWorld n v).links.linksTo (chainKey u)).length = 1 := by
  have hv : v.val ≤ n := Nat.lt_succ_iff.mp v.isLt
  have hmem := (chain_adj v u).mp hadj
  rw [LinkSet.linksTo, List.length_map, ← List.countP_eq_length_filter]
  show ((chainNear n v).map fun j => (⟨j, chainKey j⟩ : Link)).countP _ = 1
  rw [List.countP_map]
  refine (List.countP_congr fun j hj => ?_).trans
    (List.count_eq_one_of_mem (nodup_chainNear n v) hmem)
  simp only [Function.comp_apply, decide_eq_true_eq, beq_iff_eq]
  exact ⟨chainKey_inj (chainNear_lt hn hv hj) (chainNear_lt hn hv hmem), fun h => by rw [h]⟩

theorem chain_spread : Spread (fun v : Fin (n + 1) => chainKey v) (chain n) (chainWorld n ·) where
  key_injective u v h := Fin.ext (chainKey_inj (by omega) (by omega) h)
  pubkey _ := rfl
  neighbour v e he := by
    have hv : v.val ≤ n := Nat.lt_succ_iff.mp v.isLt
    obtain ⟨j, hj, rfl⟩ := List.mem_map.mp he
    have hle := ((mem_chainNear hv).mp hj).2
    exact ⟨⟨j, by omega⟩, rfl, (chain_adj v _).mpr hj⟩
  linked v u := chain_linksTo hn v u
  parents v u _ := ⟨chainInfo u, lookup_chainInfos hn u v, rfl⟩
  tracked v u hadj := Assoc.mem_iff_lookup.mpr ⟨true, lookup_chainTable hn v u _ hadj⟩
  still v := chain_still hn v
  exchanged v u hadj :=
    (lookup_chainTable hn v u (fun _ => fullFilter) hadj).trans
      (lookup_chainTable hn u v (fun _ => fullFilter) hadj.symm).symm
  writes _ _ := rfl
  registered v e he := by
    obtain ⟨j, hj, rfl⟩ := List.mem_map.mp he
    exact Assoc.mem_iff_lookup.mpr ⟨_, lookup_tableOf _ (fun _ _ _ _ h => h) hj⟩
  nodup v := by
    show (((chainNear n v).map fun j => (⟨j, chainKey j⟩ : Link)).map Link.id).Nodup
    rw [List.map_map]
    exact (List.map_id _).symm ▸ nodup_chainNear n v

theorem chain_path : (chainWorld n v).router.coords = List.replicate v 1 := by
  have hlineage : Lineage (chain n) (fun v => chainKey v) (chainWorld n v).router.tree.infos v :=
    fun k => ⟨_, lookup_chainInfos hn _ v, rfl, fun _ => rfl⟩
  have hpath := Settled.rootPathFor_eq (chain_spread hn).key_injective v hlineage
  rw [← chain_coords v]
  show ((TreeState.rootPathFor _ _).getD []) = _
  exact congrArg (·.getD []) hpath

end Chain

/-- The lookup of the last of two routers for the first. -/
theorem lookup_floods_pair :
    Portable (chainWorld 1 1).router.coords ∧
      ∀ n₀ n k, Net.Begins (fun v : Fin 2 => chainKey v) (chainWorld 1 ·) 1 (chainKey 0) n₀ →
        Net.Steps (fun v : Fin 2 => chainKey v) k n₀ n →
        k < 2 ∧ (n.flight = [] → n.handled.count 0 = 1) := by
  have hpath : Portable (chainWorld 1 1).router.coords := by
    rw [show (chainWorld 1 1).router.coords = _ from chain_path (by omega) (1 : Fin 2)]
    exact ⟨by simp, by simp⟩
  refine ⟨hpath, fun n₀ n k hbegins hsteps => ?_⟩
  obtain ⟨-, hless, -, hend⟩ := (lookup_floods (fun v : Fin 2 => chainKey v)
    (chain_spread (by omega)) 1 (chainKey 0) hpath).2 n₀ n k hbegins hsteps
  exact ⟨hless, fun hflight => hend hflight 0 rfl⟩

/-- **Deep lookups are lost.** A lookup of the last router of a long chain for the first is refused
by its neighbour, and that is the end of it. -/
theorem chain_lost {n : Nat} (hn : n < 254) (hlong : 128 < n) :
    ∃ n₀ n' k,
      Net.Begins (fun v : Fin (n + 1) => chainKey v) (chainWorld n ·) (Fin.last n) (chainKey 0) n₀ ∧
        Net.Steps (fun v : Fin (n + 1) => chainKey v) k n₀ n' ∧ n'.flight = [] ∧
        n'.handled = [Fin.last n] := by
  have hspread := chain_spread hn
  have hpath : (chainWorld n (Fin.last n).val).router.coords = List.replicate n 1 :=
    chain_path hn (Fin.last n)
  have hrefused := PathLookup.decodeExact_long
    (l := (chainWorld n (Fin.last n).val).ownLookup (chainKey 0))
    (by rw [World.ownLookup, hpath, List.length_replicate]; exact hlong)
    (by rw [World.ownLookup, hpath]; simp)
  obtain ⟨new, hnew⟩ := hspread.exists_posted (Fin.last n) (chainKey n)
    ((chainWorld n (Fin.last n).val).ownLookup (chainKey 0))
  have hpass := hspread.passesOn (u := Fin.last n) hnew
  have hpayload := (hspread.posted_keys hnew).2
  obtain ⟨nodes, hnodes⟩ : ∃ nodes, nodes = Function.update (fun v : Fin (n + 1) => chainWorld n v)
      (Fin.last n) (sendLookup netSend (chainKey 0) (chainWorld n (Fin.last n).val)).2 := ⟨_, rfl⟩
  have hbegins : Net.Begins (fun v : Fin (n + 1) => chainKey v) (chainWorld n ·) (Fin.last n)
      (chainKey 0) ⟨nodes, new, [Fin.last n]⟩ :=
    ⟨hnodes, rfl, hspread.newLookups_sendLookup (Fin.last n) (chainKey 0) ▸ hnew⟩
  -- the last router has one neighbour, so at most one frame is on its way
  have hneighbour : ∀ m ∈ new, m.2.1.val = n - 1 := by
    intro m hm
    have hnear := (mem_chainNear le_rfl).mp
      ((chain_adj _ _).mp (hpass.adj m.2.1 (List.mem_map_of_mem hm)))
    omega
  match new, hbegins, hpass, hpayload, hneighbour with
  | [], hbegins, _, _, _ => exact ⟨_, _, 0, hbegins, .refl _, rfl, rfl⟩
  | [(u, v, b)], hbegins, hpass, hpayload, hneighbour =>
    obtain rfl : u = Fin.last n := hbegins.posted.sender _ List.mem_cons_self
    obtain rfl := hpayload _ List.mem_cons_self
    have hadj : (chain n).Adj (Fin.last n) v := hpass.adj v List.mem_cons_self
    have hne : v ≠ Fin.last n := hpass.ne v List.mem_cons_self
    have hworld : nodes v = chainWorld n v := by rw [hnodes, Function.update_of_ne hne]
    obtain ⟨conn, hconn⟩ := hspread.exists_conn hadj.symm
    rw [← hworld] at hconn
    have hnone : Posted (fun v : Fin (n + 1) => chainKey v) v (nodes v)
        (newLookups (nodes v) (dispatchFrame conn .pathLookup
          ((chainWorld n (Fin.last n).val).ownLookup (chainKey 0)).encode (nodes v)).2) [] := by
      rw [newLookups_refused hconn hrefused]
      exact ⟨nofun, rfl⟩
    exact ⟨_, _, 1, hbegins, .step (.refl _)
      (@Net.Step.refuse _ _ _ _ nodes [] [] _ _ v _ conn _ _ hconn hrefused hnone), rfl, rfl⟩
  | m :: m' :: new, _, hpass, _, hneighbour =>
    have hsame : m.2.1 = m'.2.1 := Fin.ext
      ((hneighbour m (by simp)).trans (hneighbour m' (by simp)).symm)
    exact absurd hpass.nodup (by simp [hsame])

theorem deep_lookup_lost :
    Spread (fun v : Fin 130 => chainKey v) (chain 129) (chainWorld 129 ·) ∧
      ∃ n₀ n k,
        Net.Begins (fun v : Fin 130 => chainKey v) (chainWorld 129 ·) (Fin.last 129)
          (chainKey 0) n₀ ∧
        Net.Steps (fun v : Fin 130 => chainKey v) k n₀ n ∧ n.flight = [] ∧
        n.handled.count 0 = 0 := by
  refine ⟨chain_spread (by omega), ?_⟩
  obtain ⟨n₀, n, k, hbegins, hsteps, hflight, hhandled⟩ :=
    chain_lost (n := 129) (by omega) (by omega)
  refine ⟨n₀, n, k, hbegins, hsteps, hflight, ?_⟩
  rw [hhandled, List.count_singleton, if_neg]
  simp

end

end Roots

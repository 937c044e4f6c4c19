import Roots.Router.Greedy
import Roots.Router.Broken

/-!
# Roots.Router.Priority

Which of several links to one node `greedy_next` takes. The link with the lowest priority value
should win, and among the links to one node the scan does prefer a lower one to the best so far.
But the links to a node only meet each other from the first on that **beats the best link of the
nodes before it**: a link that loses there is gone, whatever its priority, and a dearer one in
priority may still win by its cost. The lowest wins exactly when none that has gone was lower than
all that were left (`lowest_priority_iff`).
-/

namespace Roots

open Prog RouterM Wire

instance : Std.Total fun a b : Key => a ≤ b :=
  ⟨fun a b => Nat.le_total (keyNat a) (keyNat b)⟩

instance : IsTrans Key fun a b => a ≤ b :=
  ⟨fun _ _ _ => Nat.le_trans⟩

/-- The sorted keys are those below one of them, it, and others. -/
theorem sortKeys_split {keys : List Key} (hnodup : keys.Nodup) {p : Key} (hp : p ∈ keys) :
    ∃ after, sortKeys keys = (sortKeys keys).filter (· < p) ++ p :: after ∧ ∀ k ∈ after, k ≠ p := by
  obtain ⟨before, after, hsplit⟩ := List.append_of_mem (mem_sortKeys.mpr hp)
  have hdistinct := nodup_sortKeys hnodup
  have hsorted : (sortKeys keys).Pairwise (· ≤ ·) := List.pairwise_insertionSort _ keys
  rw [hsplit] at hdistinct hsorted ⊢
  obtain ⟨-, htail, hle⟩ := List.pairwise_append.mp hsorted
  obtain ⟨-, hdistinct', hne⟩ := List.pairwise_append.mp hdistinct
  refine ⟨after, ?_, fun k hk heq => (List.pairwise_cons.mp hdistinct').1 k hk heq.symm⟩
  have hbefore : before.filter (· < p) = before := by
    refine List.filter_eq_self.mpr fun k hk => decide_eq_true ?_
    have hne := hne k hk p List.mem_cons_self
    exact Nat.lt_of_le_of_ne (hle k hk p List.mem_cons_self) fun heq => hne (keyNat_injective heq)
  have hafter : (p :: after).filter (· < p) = [] := by
    refine List.filter_eq_nil_iff.mpr fun k hk => ?_
    rcases List.mem_cons.mp hk with rfl | hk
    · exact fun h => Nat.lt_irrefl _ (of_decide_eq_true h)
    · exact fun h => Nat.not_le.mpr (of_decide_eq_true h) ((List.pairwise_cons.mp htail).1 k hk)
  rw [List.filter_append, hbefore, hafter, List.append_nil]

namespace TreeState

/-! ## The scan over hops -/

/-- The candidate that `greedy_next` makes of a link. -/
def hopAt (t : TreeState) (path : List UInt64) (id : LinkId) : Option Hop :=
  (t.links.lookup id).map fun l =>
    ⟨id, l, t.linkCost id, coordsDist path ((rootPathFor t.infos l.peer).getD [])⟩

/-- Whether a candidate is taken in place of the best so far. -/
def beats (best : Option Hop) (new : Hop) : Bool := best.all fun b => betterHop b new

def pick (best : Option Hop) (new : Hop) : Option Hop := if beats best new then some new else best

theorem takeHop_eq (t : TreeState) (path : List UInt64) (best : Option Hop) (id : LinkId) :
    t.takeHop path best id = (t.hopAt path id).elim best (pick best) := by
  unfold takeHop hopAt
  cases t.links.lookup id with
  | none => rfl
  | some l => cases best <;> rfl

theorem foldl_takeHop_eq (t : TreeState) (path : List UInt64) (ids : List LinkId)
    (best : Option Hop) :
    ids.foldl (t.takeHop path) best = (ids.filterMap (t.hopAt path)).foldl pick best := by
  induction ids generalizing best with
  | nil => rfl
  | cons id ids ih =>
    rw [List.foldl_cons, takeHop_eq, ih]
    cases h : t.hopAt path id with
    | none => rw [List.filterMap_cons_none h]; rfl
    | some hop => rw [List.filterMap_cons_some h]; rfl

theorem hopAt_eq_some {t : TreeState} {path : List UInt64} {id : LinkId} {hop : Hop}
    (h : t.hopAt path id = some hop) : hop.id = id ∧ t.links.lookup id = some hop.link := by
  obtain ⟨l, hl, rfl⟩ := Option.map_eq_some_iff.mp h
  exact ⟨rfl, hl⟩

/-- The best is the one so far or one of the candidates. -/
theorem foldl_pick_mem {hops : List Hop} {best : Option Hop} {hop : Hop}
    (h : hops.foldl pick best = some hop) : best = some hop ∨ hop ∈ hops := by
  induction hops generalizing best with
  | nil => exact .inl h
  | cons new hops ih =>
    rcases ih h with hpick | hmem
    · unfold pick at hpick
      split_ifs at hpick
      · cases hpick
        exact .inr List.mem_cons_self
      · exact .inl hpick
    · exact .inr (List.mem_cons_of_mem _ hmem)

/-- Among links to one node the scan ends with the lowest priority. -/
theorem foldl_pick_same (hops : List Hop) (best : Hop)
    (hpeer : ∀ hop ∈ hops, hop.link.peer = best.link.peer) :
    ∃ hop, hops.foldl pick (some best) = some hop ∧ hop ∈ best :: hops ∧
      ∀ x ∈ best :: hops, hop.link.prio ≤ x.link.prio := by
  induction hops generalizing best with
  | nil => exact ⟨best, rfl, List.mem_cons_self, by simp⟩
  | cons new hops ih =>
    have hnew : new.link.peer = best.link.peer := hpeer new List.mem_cons_self
    have hbeats : beats (some best) new = decide (new.link.prio < best.link.prio) := by
      simp [beats, betterHop, hnew]
    by_cases hlt : new.link.prio < best.link.prio
    · have hpick : pick (some best) new = some new := by simp [pick, hbeats, hlt]
      obtain ⟨hop, hfold, hmem, hle⟩ := ih new fun x hx =>
        (hpeer x (List.mem_cons_of_mem _ hx)).trans hnew.symm
      refine ⟨hop, by rw [List.foldl_cons, hpick, hfold], List.mem_cons_of_mem _ hmem, ?_⟩
      intro x hx
      rcases List.mem_cons.mp hx with rfl | hx
      · exact UInt8.le_trans (hle new List.mem_cons_self) (UInt8.le_of_lt hlt)
      · exact hle x hx
    · have hpick : pick (some best) new = some best := by simp [pick, hbeats, hlt]
      obtain ⟨hop, hfold, hmem, hle⟩ := ih best fun x hx =>
        hpeer x (List.mem_cons_of_mem _ hx)
      refine ⟨hop, by rw [List.foldl_cons, hpick, hfold], ?_, ?_⟩
      · rcases List.mem_cons.mp hmem with rfl | hmem
        · exact List.mem_cons_self
        · exact List.mem_cons_of_mem _ (List.mem_cons_of_mem _ hmem)
      · intro x hx
        rcases List.mem_cons.mp hx with rfl | hx
        · exact hle x List.mem_cons_self
        · rcases List.mem_cons.mp hx with rfl | hx
          · exact UInt8.le_trans (hle best List.mem_cons_self) (UInt8.not_lt.mp hlt)
          · exact hle x (List.mem_cons_of_mem _ hx)

/-- The turn of one node: its links are dropped up to the first that beats the best so far, and
the lowest of the others is the best then. -/
theorem foldl_pick_turn {hops : List Hop} {p : Key} (hpeer : ∀ hop ∈ hops, hop.link.peer = p)
    (best : Option Hop) :
    (hops.dropWhile fun hop => !beats best hop) = [] ∧ hops.foldl pick best = best ∨
      ∃ hop ∈ hops.dropWhile fun hop => !beats best hop, hops.foldl pick best = some hop ∧
        ∀ x ∈ hops.dropWhile fun hop => !beats best hop, hop.link.prio ≤ x.link.prio := by
  induction hops with
  | nil => exact .inl ⟨rfl, rfl⟩
  | cons new hops ih =>
    cases hbeats : beats best new with
    | true =>
      rw [List.dropWhile_cons_of_neg (by simp [hbeats]), List.foldl_cons]
      have hpick : pick best new = some new := by simp [pick, hbeats]
      obtain ⟨hop, hfold, hmem, hle⟩ := foldl_pick_same hops new fun x hx =>
        (hpeer x (List.mem_cons_of_mem _ hx)).trans (hpeer new List.mem_cons_self).symm
      exact .inr ⟨hop, hmem, by rw [hpick, hfold], hle⟩
    | false =>
      have hpick : pick best new = best := by simp [pick, hbeats]
      rw [List.dropWhile_cons_of_pos (by simp [hbeats]), List.foldl_cons, hpick]
      exact ih fun x hx => hpeer x (List.mem_cons_of_mem _ hx)

/-! ## The turn of a node -/

/-- The links that `greedy_next` considers for the node `k`. -/
def closerTo (t : TreeState) (links : LinkSet) (path : List UInt64) (dist : UInt64) (k : Key) :
    List LinkId :=
  match rootPathFor t.infos k with
  | some kp => if coordsDist path kp < dist then links.linksTo k else []
  | none => []

theorem closer_eq (t : TreeState) (links : LinkSet) (path : List UInt64) (dist : UInt64) :
    t.closer links path dist = (sortKeys links.peers).flatMap (t.closerTo links path dist) :=
  rfl

theorem closerTo_eq (t : TreeState) (links : LinkSet) (path : List UInt64) (dist : UInt64)
    (k : Key) : t.closerTo links path dist k = links.linksTo k ∨ t.closerTo links path dist k = [] := by
  unfold closerTo
  split
  · split_ifs
    · exact .inl rfl
    · exact .inr rfl
  · exact .inr rfl

/-- The best link of the nodes with smaller keys than `p`. -/
def bestBefore (t : TreeState) (links : LinkSet) (path : List UInt64) (dist : UInt64) (p : Key) :
    Option Hop :=
  (((sortKeys links.peers).filter (· < p)).flatMap (t.closerTo links path dist)).foldl
    (t.takeHop path) none

/-- The distance below which a node is closer than this one, with the key `pubkey`. -/
def reach (t : TreeState) (pubkey : Key) (path : List UInt64) : UInt64 :=
  match rootPathFor t.infos pubkey with
  | none => maxU64
  | some sp => coordsDist path sp

theorem nextHop_of_greedyNext {t : TreeState} {links : LinkSet} {pubkey : Key} {path : List UInt64}
    {watermark watermark' : UInt64} {id : LinkId}
    (h : t.greedyNext links pubkey path watermark = (some id, watermark')) :
    t.nextHop links path (t.reach pubkey path) = some id := by
  unfold greedyNext at h
  unfold reach
  cases hsp : rootPathFor t.infos pubkey with
  | none =>
    rw [hsp] at h
    exact (Prod.mk.inj h).1
  | some sp =>
    rw [hsp] at h
    dsimp only at h ⊢
    split_ifs at h
    · exact (Prod.mk.inj h).1
    · cases (Prod.mk.inj h).1

/-- Where the router keeps books on a link of the set, they name the same node. -/
def Agrees (t : TreeState) (links : LinkSet) : Prop :=
  ∀ e ∈ links.entries, ∀ l, t.links.lookup e.id = some l → l.peer = e.peer

/-- No link to `p` has a lower priority value than the link `id`. -/
def LowestTo (t : TreeState) (links : LinkSet) (p : Key) (id : LinkId) : Prop :=
  ∀ id' ∈ links.linksTo p, ∀ l l', t.links.lookup id = some l → t.links.lookup id' = some l' →
    ¬ l'.prio < l.prio

/-- Of the links to `p` in order: each one before the first that beats the best of the nodes
before has, from that one on, a link with a priority value that is not above its own. -/
def NonePassedOver (t : TreeState) (links : LinkSet) (path : List UInt64) (dist : UInt64)
    (p : Key) : Prop :=
  ∀ x ∈ ((links.linksTo p).filterMap (t.hopAt path)).takeWhile
      fun hop => !beats (t.bestBefore links path dist p) hop,
    ∃ y ∈ ((links.linksTo p).filterMap (t.hopAt path)).dropWhile
        fun hop => !beats (t.bestBefore links path dist p) hop,
      y.link.prio ≤ x.link.prio

instance (t : TreeState) (links : LinkSet) (path : List UInt64) (dist : UInt64) (p : Key) :
    Decidable (t.NonePassedOver links path dist p) :=
  List.decidableBAll _ _

section Turn

variable {t : TreeState} {links : LinkSet} {path : List UInt64} {dist : UInt64} {p : Key}

theorem Agrees.peer (h : t.Agrees links) {id : LinkId} {k : Key} (hid : id ∈ links.linksTo k)
    {l : LinkState} (hl : t.links.lookup id = some l) : l.peer = k :=
  h ⟨id, k⟩ (LinkSet.mem_linksTo.mp hid) l hl

/-- A hop that comes out of the turns of some nodes is a link to one of them. -/
theorem Agrees.peer_mem (h : t.Agrees links) {keys : List Key} {best : Option Hop} {hop : Hop}
    (hfold : (keys.flatMap (t.closerTo links path dist)).foldl (t.takeHop path) best = some hop) :
    best = some hop ∨ hop.link.peer ∈ keys := by
  rw [foldl_takeHop_eq] at hfold
  refine (foldl_pick_mem hfold).imp_right fun hmem => ?_
  obtain ⟨id, hid, hhop⟩ := List.mem_filterMap.mp hmem
  obtain ⟨k, hk, hid⟩ := List.mem_flatMap.mp hid
  have hto : id ∈ links.linksTo k := by
    rcases t.closerTo_eq links path dist k with heq | hnil
    · rwa [heq] at hid
    · rw [hnil] at hid
      cases hid
  rw [h.peer hto (hopAt_eq_some hhop).2]
  exact hk

/-- What the scan has found when the links to `p` have had their turn, if it ends with one. -/
theorem Agrees.foldl_turn (h : t.Agrees links) {hop : Hop}
    (hfold : (t.closer links path dist).foldl (t.takeHop path) none = some hop)
    (hpeer : hop.link.peer = p) :
    ((links.linksTo p).filterMap (t.hopAt path)).foldl pick (t.bestBefore links path dist p) =
        some hop ∧ t.bestBefore links path dist p ≠ some hop := by
  have hp : p ∈ sortKeys links.peers := by
    rcases h.peer_mem (t.closer_eq links path dist ▸ hfold) with hnone | hmem
    · cases hnone
    · rwa [hpeer] at hmem
  obtain ⟨after, hsplit, hafter⟩ := sortKeys_split links.nodup_peers (mem_sortKeys.mp hp)
  have hbefore : t.bestBefore links path dist p ≠ some hop := by
    intro heq
    rcases h.peer_mem heq with hnone | hmem
    · cases hnone
    · have hlt : hop.link.peer < p := by simpa using (List.mem_filter.mp hmem).2
      rw [hpeer] at hlt
      exact Nat.lt_irrefl _ hlt
  rw [closer_eq, hsplit, List.flatMap_append, List.flatMap_cons, List.foldl_append,
    List.foldl_append] at hfold
  have hturn := (h.peer_mem hfold).resolve_right fun hmem => hafter _ hmem hpeer
  rcases t.closerTo_eq links path dist p with heq | hnil
  · rw [heq, foldl_takeHop_eq] at hturn
    exact ⟨hturn, hbefore⟩
  · rw [hnil] at hturn
    exact absurd hturn hbefore

end Turn

/-- **The lowest priority wins exactly when none lower has gone before.** Whatever the router's
tables, the links, the path and the watermark: the link to `p` that `greedy_next` returns has the
lowest priority value of the links to `p` if and only if no link to `p` that was dropped because it
lost to the best link of the nodes with smaller keys was lower than all links to `p` from the first
on that did not. -/
theorem lowest_priority_iff {t : TreeState} {links : LinkSet} (hagrees : t.Agrees links)
    {pubkey : Key} {path : List UInt64} {watermark watermark' : UInt64} {id : LinkId}
    (hnext : t.greedyNext links pubkey path watermark = (some id, watermark')) {p : Key}
    (hid : id ∈ links.linksTo p) :
    t.LowestTo links p id ↔ t.NonePassedOver links path (t.reach pubkey path) p := by
  obtain ⟨hop, hfold, rfl⟩ := Option.map_eq_some_iff.mp (nextHop_of_greedyNext hnext)
  have hlookup : t.links.lookup hop.id = some hop.link := by
    rw [foldl_takeHop_eq] at hfold
    obtain ⟨id, -, hhop⟩ := List.mem_filterMap.mp ((foldl_pick_mem hfold).resolve_left nofun)
    obtain ⟨hhopId, hl⟩ := hopAt_eq_some hhop
    rwa [hhopId]
  obtain ⟨hturn, hbefore⟩ := hagrees.foldl_turn hfold (hagrees.peer hid hlookup)
  obtain ⟨hops, hhops⟩ : ∃ hops, hops = (links.linksTo p).filterMap (t.hopAt path) := ⟨_, rfl⟩
  -- The priorities of the links are those of the hops.
  have hlowest : t.LowestTo links p hop.id ↔ ∀ x ∈ hops, hop.link.prio ≤ x.link.prio := by
    rw [hhops]
    constructor
    · intro h x hx
      obtain ⟨id', hid', hx⟩ := List.mem_filterMap.mp hx
      exact UInt8.not_lt.mp (h id' hid' _ _ hlookup (hopAt_eq_some hx).2)
    · intro h id' hid' l l' hl hl'
      obtain rfl := Option.some.inj (hlookup.symm.trans hl)
      exact UInt8.not_lt.mpr (h _ (List.mem_filterMap.mpr ⟨id', hid', by rw [hopAt, hl']; rfl⟩))
  have hpeers : ∀ x ∈ hops, x.link.peer = p := by
    intro x hx
    obtain ⟨id', hid', hx⟩ := List.mem_filterMap.mp (hhops ▸ hx)
    exact hagrees.peer hid' (hopAt_eq_some hx).2
  rw [hlowest, NonePassedOver, ← hhops]
  rw [← hhops] at hturn
  rcases foldl_pick_turn hpeers (t.bestBefore links path (t.reach pubkey path) p) with
    ⟨-, hkept⟩ | ⟨best, hmem, hpicked, hle⟩
  · exact absurd (hkept.symm.trans hturn) hbefore
  · obtain rfl := Option.some.inj (hpicked.symm.trans hturn)
    constructor
    · intro h x hx
      exact ⟨best, hmem, h x (List.takeWhile_subset _ hx)⟩
    · intro h x hx
      rw [← List.takeWhile_append_dropWhile
        (p := fun hop => !beats (t.bestBefore links path (t.reach pubkey path) p) hop)
        (l := hops)] at hx
      rcases List.mem_append.mp hx with hearly | hlate
      · obtain ⟨y, hy, hyx⟩ := h x hearly
        exact UInt8.le_trans (hle y hy) hyx
      · exact hle x hlate

end TreeState

/-- In the states of a node the two tables agree. -/
theorem Inv.agrees [Crypto] {S : Scope} {w : World} (h : Inv S w) :
    w.router.tree.Agrees w.links := by
  intro e he l hl
  have hpeer := h.served e he
  rw [TreeState.peerAt, hl] at hpeer
  exact Option.some.inj hpeer

/-! ## Two links to one node -/

section

attribute [local instance] Sample.lenient

/-- The announce of a root. -/
def rootNear : Announce where
  key := highKey 0xa0
  parent := highKey 0xa0
  res := SigRes.seal ⟨1, 7⟩ 0 (highKey 0xa0) (highKey 0xa0) (highKey 0xa0)
  sig := Crypto.sign (highKey 0xa0) []

/-- The announce of a child of that root. -/
def childNear : Announce where
  key := highKey 0xb0
  parent := highKey 0xa0
  res := SigRes.seal ⟨1, 7⟩ 5 (highKey 0xb0) (highKey 0xa0) (highKey 0xa0)
  sig := Crypto.sign (highKey 0xb0) []

/-- The answer of the child to a request. -/
def childAnswer (req : SigReq) : SigRes :=
  SigRes.seal req 6 (highKey 0x90) (highKey 0xb0) (highKey 0xb0)

/-- The child has two links, with the priorities 1 and 0. -/
def twoLinks : World :=
  (World.init (highKey 0x90) (.even 1)).run
    [.connect (highKey 0xb0) 1 true, .connect (highKey 0xb0) 0 true,
      .frame 0 .announce rootNear.encode, .frame 0 .announce childNear.encode]

theorem twoLinks_reachable : twoLinks.Reachable := ⟨_, _, _, rfl⟩

/-- The second link wins there. -/
theorem lowest_priority_twoLinks :
    twoLinks.router.tree.greedyNext twoLinks.links twoLinks.router.pubkey [7] maxU64 =
        (some 1, maxU64) ∧
      twoLinks.router.tree.LowestTo twoLinks.links (highKey 0xb0) 1 := by
  obtain ⟨hnext, hid, hnone⟩ :
      twoLinks.router.tree.greedyNext twoLinks.links twoLinks.router.pubkey [7] maxU64 =
          (some 1, maxU64) ∧ 1 ∈ twoLinks.links.linksTo (highKey 0xb0) ∧
        twoLinks.router.tree.NonePassedOver twoLinks.links [7]
          (twoLinks.router.tree.reach twoLinks.router.pubkey [7]) (highKey 0xb0) := by
    decide +kernel
  exact ⟨hnext, (TreeState.lowest_priority_iff twoLinks_reachable.inv.agrees hnext hid).mpr hnone⟩

/-- The root has a link, and the child two with the priorities 0 and 1, of which the second has
been measured. -/
def threeLinks : World :=
  (World.init (highKey 0x90) (.even 1)).run
    [.connect (highKey 0xa0) 0 true, .connect (highKey 0xb0) 0 true,
      .connect (highKey 0xb0) 1 true, .frame 0 .announce rootNear.encode,
      .frame 1 .announce childNear.encode, .frame 2 .sigRes (childAnswer ⟨1, 4⟩).encode]

/-- The link with priority 0 to the child loses to the root, which is nearer to the path, and
the one with priority 1 then beats the root. -/
theorem higher_priority_wins :
    threeLinks.Reachable ∧ 2 ∈ threeLinks.links.linksTo (highKey 0xb0) ∧
      threeLinks.router.tree.greedyNext threeLinks.links threeLinks.router.pubkey [7] maxU64 =
        (some 2, maxU64) ∧
      ¬ threeLinks.router.tree.LowestTo threeLinks.links (highKey 0xb0) 2 := by
  obtain ⟨hid, hid', hnext, hprio, hprio'⟩ :
      2 ∈ threeLinks.links.linksTo (highKey 0xb0) ∧ 1 ∈ threeLinks.links.linksTo (highKey 0xb0) ∧
        threeLinks.router.tree.greedyNext threeLinks.links threeLinks.router.pubkey [7] maxU64 =
          (some 2, maxU64) ∧
        (threeLinks.router.tree.links.lookup 2).map LinkState.prio = some 1 ∧
        (threeLinks.router.tree.links.lookup 1).map LinkState.prio = some 0 := by
    decide +kernel
  obtain ⟨l, hl, hprio⟩ := Option.map_eq_some_iff.mp hprio
  obtain ⟨l', hl', hprio'⟩ := Option.map_eq_some_iff.mp hprio'
  refine ⟨⟨_, _, _, rfl⟩, hid, hnext, fun hlowest => hlowest 1 hid' l l' hl hl' ?_⟩
  rw [hprio, hprio']
  decide

end

end Roots

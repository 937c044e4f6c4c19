import Roots.Router.Parent
import Roots.Wire.RoundTrip

/-!
# Roots.Router.Greedy

Why a packet that is sent on comes closer to where it goes. A router that knows its own
coordinates lowers the watermark to its distance and only sends on to neighbours below
it, so each such hop uses up at least one unit of the watermark **the packet itself
carries**: whatever the tables of the routers say, the packet meets only that many of them
(`greedy_progress`). A router without coordinates of its own compares nothing: it
leaves the watermark as it is, and two of them can pass a packet back and forth forever
(`unplaced_routers_loop`).
-/

namespace Roots

open Prog RouterM Wire
open Sample (smallKey)

namespace TreeState

/-! ## The next hop -/

theorem takeHop_id {t : TreeState} {path : List UInt64} {best : Option Hop} {id : LinkId} {hop : Hop}
    (h : t.takeHop path best id = some hop) : best = some hop ∨ hop.id = id := by
  unfold takeHop at h
  split at h
  · exact .inl h
  · dsimp only at h
    split at h
    · cases h
      exact .inr rfl
    · split_ifs at h
      · cases h
        exact .inr rfl
      · exact .inl h

theorem foldl_takeHop_id {t : TreeState} {path : List UInt64} (ids : List LinkId)
    {best : Option Hop} {hop : Hop} (h : ids.foldl (t.takeHop path) best = some hop) :
    best = some hop ∨ hop.id ∈ ids := by
  induction ids generalizing best with
  | nil => exact .inl h
  | cons id ids ih =>
    rcases ih h with hbest | hmem
    · exact (takeHop_id hbest).imp_right fun heq => List.mem_cons.mpr (.inl heq)
    · exact .inr (List.mem_cons_of_mem _ hmem)

theorem mem_closer {t : TreeState} {links : LinkSet} {path : List UInt64} {dist : UInt64}
    {id : LinkId} (h : id ∈ t.closer links path dist) :
    ∃ k kp, id ∈ links.linksTo k ∧ rootPathFor t.infos k = some kp ∧ coordsDist path kp < dist := by
  obtain ⟨k, -, hid⟩ := List.mem_flatMap.mp h
  split at hid
  · rename_i kp hkp
    split_ifs at hid with hdist
    · exact ⟨k, kp, hid, hkp, hdist⟩
    · cases hid
  · cases hid

/-- The next hop is a link to a neighbour that is closer. -/
theorem nextHop_closer {t : TreeState} {links : LinkSet} {path : List UInt64} {dist : UInt64}
    {id : LinkId} (h : t.nextHop links path dist = some id) :
    ∃ k kp, id ∈ links.linksTo k ∧ rootPathFor t.infos k = some kp ∧ coordsDist path kp < dist := by
  obtain ⟨hop, hhop, rfl⟩ := Option.map_eq_some_iff.mp h
  exact mem_closer ((foldl_takeHop_id _ hhop).resolve_left nofun)

theorem greedyNext_watermark_le (t : TreeState) (links : LinkSet) (pubkey : Key)
    (path : List UInt64) (watermark : UInt64) :
    (t.greedyNext links pubkey path watermark).2 ≤ watermark := by
  unfold greedyNext
  split
  · exact UInt64.le_refl _
  · dsimp only
    split_ifs with hlt
    · exact UInt64.le_of_lt hlt
    · exact UInt64.le_refl _

/-- Without coordinates of its own, a router compares nothing and leaves the watermark. -/
theorem greedyNext_unplaced {t : TreeState} (links : LinkSet) {pubkey : Key} (path : List UInt64)
    (watermark : UInt64) (hunplaced : rootPathFor t.infos pubkey = none) :
    t.greedyNext links pubkey path watermark = (t.nextHop links path maxU64, watermark) := by
  rw [greedyNext, hunplaced]

/-- With coordinates of its own, a router only sends on below the watermark. -/
theorem greedyNext_progress {t : TreeState} {links : LinkSet} {pubkey : Key} {path : List UInt64}
    {watermark watermark' : UInt64} {id : LinkId}
    (hplaced : (rootPathFor t.infos pubkey).isSome)
    (h : t.greedyNext links pubkey path watermark = (some id, watermark')) :
    watermark' < watermark ∧ ∃ k kp, id ∈ links.linksTo k ∧ rootPathFor t.infos k = some kp ∧
      coordsDist path kp < watermark' := by
  obtain ⟨sp, hsp⟩ := Option.isSome_iff_exists.mp hplaced
  rw [greedyNext, hsp] at h
  dsimp only at h
  split_ifs at h with hlt
  · obtain ⟨hnext, rfl⟩ := Prod.mk.inj h
    exact ⟨hlt, nextHop_closer hnext⟩
  · cases (Prod.mk.inj h).1

end TreeState

section

variable [Crypto]

/-! ## Sending on -/

/-- The link and the watermark a packet for `path` leaves with. -/
def World.hop (w : World) (path : List UInt64) (watermark : UInt64) : Option (LinkId × UInt64) :=
  match w.router.tree.greedyNext w.links w.router.pubkey path watermark with
  | (some id, watermark) => some (id, watermark)
  | (none, _) => none

/-- What a router sends on of a frame, and on which link. -/
def World.relay (w : World) (ftype : FrameType) (payload : Bytes) : Option (LinkId × Bytes) :=
  match ftype with
  | .traffic =>
      match Traffic.decode payload with
      | .ok tr => (w.hop tr.path tr.watermark).map fun h => (h.1, { tr with watermark := h.2 }.bytes)
      | .error _ => none
  | .pathNotify =>
      match PathNotify.decodeExact payload with
      | .ok n =>
          if n.check then
            (w.hop n.path n.watermark).map fun h => (h.1, { n with watermark := h.2 }.encode)
          else none
      | .error _ => none
  | .pathBroken =>
      match PathBroken.decodeExact payload with
      | .ok b => (w.hop b.path b.watermark).map fun h => (h.1, { b with watermark := h.2 }.encode)
      | .error _ => none
  | _ => none

theorem World.hop_eq_some {w : World} {path : List UInt64} {watermark watermark' : UInt64}
    {id : LinkId} : w.hop path watermark = some (id, watermark') ↔
      w.router.tree.greedyNext w.links w.router.pubkey path watermark = (some id, watermark') := by
  unfold World.hop
  split <;> simp_all

theorem World.hop_eq_none {w : World} {path : List UInt64} {watermark : UInt64} :
    w.hop path watermark = none ↔
      (w.router.tree.greedyNext w.links w.router.pubkey path watermark).1 = none := by
  unfold World.hop
  split <;> simp_all

theorem forward_arrived {w : World} (tr : Traffic) (h : w.hop tr.path tr.watermark = none) :
    forward tr w = (.ok false, w) :=
  forward_eq_false.mpr ⟨rfl, World.hop_eq_none.mp h⟩

theorem forward_hop {w : World} (tr : Traffic) {id : LinkId} {watermark : UInt64}
    (h : w.hop tr.path tr.watermark = some (id, watermark)) :
    forward tr w =
      (writeVia id .traffic { tr with watermark }.bytes >>= fun _ => pure true : RouterM Bool) w := by
  rw [forward, greedy, Prog.gets_bind, World.hop_eq_some.mp h]
  simp only [run_bind, lift, Traffic.encode_eq]

theorem handleInboundTraffic_hop {w : World} {tr : Traffic} {id : LinkId} {watermark : UInt64}
    (h : w.hop tr.path tr.watermark = some (id, watermark)) :
    handleInboundTraffic tr w = writeVia id .traffic { tr with watermark }.bytes w := by
  rw [handleInboundTraffic, run_bind, forward_hop tr h, run_bind]
  cases hwrite : writeVia id .traffic { tr with watermark }.bytes w with
  | mk r w' => cases r <;> rfl

/-- That is all the router does with the frame. -/
theorem handleFrame_relay {w : World} {conn : LinkId} {peer : Key} {payload : Bytes}
    {ftype : FrameType} {id : LinkId} {b : Bytes} (h : w.relay ftype payload = some (id, b)) :
    handleFrame conn peer payload ftype w = writeVia id ftype b w := by
  unfold World.relay at h
  split at h
  · split at h
    · rename_i tr htr
      obtain ⟨⟨next, watermark⟩, hhop, heq⟩ := Option.map_eq_some_iff.mp h
      cases heq
      rw [handleFrame, htr]
      exact handleInboundTraffic_hop hhop
    · cases h
  · split at h
    · rename_i n hn
      split_ifs at h with hcheck
      obtain ⟨⟨next, watermark⟩, hhop, heq⟩ := Option.map_eq_some_iff.mp h
      cases heq
      rw [handleFrame, hn]
      show (if n.check = true then handleNotify netSend n else pure () : RouterM Unit) w = _
      rw [if_pos hcheck, handleNotify, greedy, Prog.gets_bind, World.hop_eq_some.mp hhop]
    · cases h
  · split at h
    · rename_i br hbr
      obtain ⟨⟨next, watermark⟩, hhop, heq⟩ := Option.map_eq_some_iff.mp h
      cases heq
      rw [handleFrame, hbr]
      show handleBroken netSend br w = _
      rw [handleBroken, greedy, Prog.gets_bind, World.hop_eq_some.mp hhop]
    · cases h
  · cases h

omit [Crypto] in
/-- The watermark a frame carries. -/
def watermarkOf (ftype : FrameType) (payload : Bytes) : Option UInt64 :=
  match ftype with
  | .traffic => (Traffic.decode payload).toOption.map Traffic.watermark
  | .pathNotify => (PathNotify.decodeExact payload).toOption.map PathNotify.watermark
  | .pathBroken => (PathBroken.decodeExact payload).toOption.map PathBroken.watermark
  | _ => none

/-- A frame that is sent on carries the watermark of the next hop, and its receiver reads
it back. -/
theorem relay_watermark {w : World} {ftype : FrameType} {payload b : Bytes} {id : LinkId}
    (h : w.relay ftype payload = some (id, b)) :
    ∃ path watermark watermark', w.hop path watermark = some (id, watermark') ∧
      watermarkOf ftype payload = some watermark ∧ watermarkOf ftype b = some watermark' := by
  unfold World.relay at h
  split at h
  · split at h
    · rename_i tr htr
      obtain ⟨⟨next, watermark⟩, hhop, heq⟩ := Option.map_eq_some_iff.mp h
      cases heq
      obtain ⟨hpath, hfrom⟩ := Traffic.portable_of_decode htr
      have hnext := Traffic.decode_bytes { tr with watermark } hpath hfrom
      refine ⟨tr.path, tr.watermark, watermark, hhop, ?_, ?_⟩
      · simp [watermarkOf, htr, Except.toOption]
      · simp [watermarkOf, hnext, Except.toOption]
    · cases h
  · split at h
    · rename_i n hn
      split_ifs at h
      obtain ⟨⟨next, watermark⟩, hhop, heq⟩ := Option.map_eq_some_iff.mp h
      cases heq
      obtain ⟨hpath, hinfo⟩ := PathNotify.portable_of_decodeExact hn
      have hnext := PathNotify.decodeExact_encode { n with watermark } hpath hinfo
      refine ⟨n.path, n.watermark, watermark, hhop, ?_, ?_⟩
      · simp [watermarkOf, hn, Except.toOption]
      · simp [watermarkOf, hnext, Except.toOption]
    · cases h
  · split at h
    · rename_i br hbr
      obtain ⟨⟨next, watermark⟩, hhop, heq⟩ := Option.map_eq_some_iff.mp h
      cases heq
      have hpath := PathBroken.portable_of_decodeExact hbr
      have hnext := PathBroken.decodeExact_encode { br with watermark } hpath
      refine ⟨br.path, br.watermark, watermark, hhop, ?_, ?_⟩
      · simp [watermarkOf, hbr, Except.toOption]
      · simp [watermarkOf, hnext, Except.toOption]
    · cases h
  · cases h

/-! ## Journeys -/

/-- The frame is sent on by one router after the other. The tables of the routers need
not agree, and may change in between: a router that is met twice is listed twice, as it is
each time. -/
def Journey (ftype : FrameType) : Bytes → List World → Prop
  | _, [] => True
  | payload, w :: ws => ∃ id b, w.relay ftype payload = some (id, b) ∧ Journey ftype b ws

/-- The router knows its own coordinates. -/
def World.placed (w : World) : Bool :=
  (TreeState.rootPathFor w.router.tree.infos w.router.pubkey).isSome

/-- The placed routers of a journey use up the watermark. -/
theorem countP_placed_le {ftype : FrameType} {payload : Bytes} {ws : List World}
    (h : Journey ftype payload ws) {watermark : UInt64}
    (hwatermark : watermarkOf ftype payload = some watermark) :
    ws.countP World.placed ≤ watermark.toNat := by
  induction ws generalizing payload watermark with
  | nil => exact Nat.zero_le _
  | cons w ws ih =>
    obtain ⟨id, b, hrelay, hrest⟩ := h
    obtain ⟨path, before, after, hhop, hbefore, hafter⟩ := relay_watermark hrelay
    cases hwatermark.symm.trans hbefore
    have hrec := ih hrest hafter
    have hnext := World.hop_eq_some.mp hhop
    by_cases hplaced : w.placed = true
    · have hlt := (TreeState.greedyNext_progress hplaced hnext).1
      rw [UInt64.lt_iff_toNat_lt] at hlt
      rw [List.countP_cons_of_pos hplaced]
      omega
    · have hle := w.router.tree.greedyNext_watermark_le w.links w.router.pubkey path watermark
      rw [hnext, UInt64.le_iff_toNat_le] at hle
      rw [List.countP_cons_of_neg hplaced]
      exact hrec.trans hle

/-- **Greedy forwarding makes progress at every router that knows its coordinates**: it lowers
the watermark, and sends on to a neighbour that is closer than that. One that does not leaves
the watermark as it is. Hence a frame meets only finitely many of the former, whatever their
tables are. -/
theorem greedy_progress :
    (∀ (t : TreeState) (links : LinkSet) (pubkey : Key) (path : List UInt64)
      (watermark watermark' : UInt64) (id : LinkId),
      (TreeState.rootPathFor t.infos pubkey).isSome →
      t.greedyNext links pubkey path watermark = (some id, watermark') →
        watermark' < watermark ∧ ∃ k kp, id ∈ links.linksTo k ∧
          TreeState.rootPathFor t.infos k = some kp ∧ coordsDist path kp < watermark') ∧
    (∀ (t : TreeState) (links : LinkSet) (pubkey : Key) (path : List UInt64) (watermark : UInt64),
      TreeState.rootPathFor t.infos pubkey = none →
        t.greedyNext links pubkey path watermark = (t.nextHop links path maxU64, watermark)) ∧
    ∀ (ftype : FrameType) (payload : Bytes), ∃ n, ∀ ws, Journey ftype payload ws →
      ws.countP World.placed ≤ n := by
  refine ⟨fun _ _ _ _ _ _ _ => TreeState.greedyNext_progress,
    fun _ links _ => TreeState.greedyNext_unplaced links, fun ftype payload => ?_⟩
  cases hwatermark : watermarkOf ftype payload with
  | some watermark => exact ⟨watermark.toNat, fun ws h => countP_placed_le h hwatermark⟩
  | none =>
    refine ⟨0, fun ws h => ?_⟩
    cases ws with
    | nil => exact Nat.zero_le _
    | cons w ws =>
      obtain ⟨id, b, hrelay, -⟩ := h
      obtain ⟨path, before, after, -, hbefore, -⟩ := relay_watermark hrelay
      cases hwatermark.symm.trans hbefore

end

/-! ## Runs -/

section

attribute [local instance] Sample.lenient

/-- A node that has not joined a tree yet, with a link to a root that has announced
itself. -/
def unplaced (self root : UInt8) : World :=
  (World.init (smallKey self) (.even 1)).run
    [.connect (smallKey root) 0 true,
      .frame 0 .announce (Announce.encode
        { lowRoot with key := smallKey root, parent := smallKey root })]

/-- A packet for somebody else. -/
def passing : Traffic where
  path := []
  «from» := []
  source := smallKey 5
  dest := smallKey 7
  watermark := 1
  payload := []

/-- The two nodes in turn. -/
def pingPong : Nat → List World
  | 0 => []
  | n + 1 => unplaced 9 3 :: unplaced 3 9 :: pingPong n

theorem relay_unplaced {w : World} (h : w.hop [] 1 = some (0, 1)) :
    w.relay .traffic passing.bytes = some (0, passing.bytes) := by
  have hdecode : Traffic.decode passing.bytes = .ok passing := Traffic.decode_bytes _ .nil .nil
  rw [World.relay, hdecode]
  show (w.hop [] 1).map _ = _
  rw [h]
  rfl

/-- Each of the two is the other's way to the root, so the packet goes back and forth with
the watermark it came with. -/
theorem unplaced_routers_loop :
    (unplaced 9 3).Reachable ∧ (unplaced 3 9).Reachable ∧
      (unplaced 9 3).hop [] 1 = some (0, 1) ∧ (unplaced 3 9).hop [] 1 = some (0, 1) ∧
      ∀ n, Journey .traffic passing.bytes (pingPong n) ∧ (pingPong n).length = 2 * n := by
  have hthere : (unplaced 9 3).hop [] 1 = some (0, 1) := by decide +kernel
  have hback : (unplaced 3 9).hop [] 1 = some (0, 1) := by decide +kernel
  refine ⟨⟨_, _, _, rfl⟩, ⟨_, _, _, rfl⟩, hthere, hback, fun n => ?_⟩
  induction n with
  | zero => exact ⟨trivial, rfl⟩
  | succ n ih =>
    refine ⟨⟨0, _, relay_unplaced hthere, 0, _, relay_unplaced hback, ih.1⟩, ?_⟩
    simp only [pingPong, List.length_cons, ih.2]
    omega

/-- A node below the root sends a packet for the root there, with its own distance. -/
theorem greedy_progress_joined :
    (answered.act .maintain).router.tree.greedyNext (answered.act .maintain).links
        (answered.act .maintain).router.pubkey [] 3 = (some 0, 1) ∧ (1 : UInt64) < 3 := by
  have hnext : (answered.act .maintain).router.tree.greedyNext (answered.act .maintain).links
      (answered.act .maintain).router.pubkey [] 3 = (some 0, 1) := by decide +kernel
  have hplaced : (TreeState.rootPathFor (answered.act .maintain).router.tree.infos
      (answered.act .maintain).router.pubkey).isSome := by decide +kernel
  exact ⟨hnext, (greedy_progress.1 _ _ _ _ _ _ _ hplaced hnext).1⟩

end

end Roots

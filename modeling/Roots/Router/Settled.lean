import Roots.Lib.PortTree
import Roots.Router.Greedy

/-!
# Roots.Router.Settled

A settled tree of routers: their tables agree with one tree, and every edge of the tree is
a link. There the coordinates `root_path_for` computes are those of the tree, a router always
knows a neighbour that is closer, and greedy forwarding takes a packet to its destination
in no more hops than the tree has between the two (`settled_delivers_iff`). The one
packet that is not delivered is the one a router sends **to itself**: `route_traffic` only
looks for a next hop, where `handle_inbound_traffic` would hand the packet to the session.
-/

namespace Roots

open Prog RouterM Wire
open Sample (smallKey)

/-! ## The next hop is found -/

namespace TreeState

theorem takeHop_isSome {t : TreeState} {path : List UInt64} {best : Option Hop} {id : LinkId}
    (h : best.isSome ∨ id ∈ t.links) : (t.takeHop path best id).isSome := by
  unfold takeHop
  split
  · rename_i hnone
    exact h.resolve_right (AList.lookup_eq_none.mp hnone)
  · dsimp only
    split
    · rfl
    · split_ifs <;> rfl

theorem foldl_takeHop_isSome {t : TreeState} {path : List UInt64} (ids : List LinkId)
    {best : Option Hop} (h : best.isSome ∨ ∃ id ∈ ids, id ∈ t.links) :
    (ids.foldl (t.takeHop path) best).isSome := by
  induction ids generalizing best with
  | nil => simpa using h
  | cons id ids ih =>
    refine ih ?_
    rcases h with hbest | ⟨id', hmem, hid'⟩
    · exact .inl (takeHop_isSome (.inl hbest))
    · rcases List.mem_cons.mp hmem with rfl | hmem
      · exact .inl (takeHop_isSome (.inr hid'))
      · exact .inr ⟨id', hmem, hid'⟩

/-- There is a next hop if a closer neighbour has a registered link. -/
theorem nextHop_isSome {t : TreeState} {links : LinkSet} {path : List UInt64} {dist : UInt64}
    {e : Link} (he : e ∈ links.entries) {kp : List UInt64}
    (hkp : rootPathFor t.infos e.peer = some kp) (hdist : coordsDist path kp < dist)
    (hlink : e.id ∈ t.links) : (t.nextHop links path dist).isSome := by
  rw [nextHop, Option.isSome_map]
  refine foldl_takeHop_isSome _ (.inr ⟨e.id, ?_, hlink⟩)
  refine List.mem_flatMap.mpr ⟨e.peer, mem_sortKeys.mpr (LinkSet.mem_peers.mpr ⟨e, he, rfl⟩), ?_⟩
  simp only [hkp, if_pos hdist]
  exact LinkSet.mem_linksTo.mpr he

end TreeState

/-! ## Settled trees -/

section

variable [Crypto] {V : Type}

/-- The infos of a node and of all its ancestors are in a table, and they are true. -/
def Lineage (T : PortTree V UInt64) (key : V → Key) (infos : Assoc Key Info) (u : V) : Prop :=
  ∀ n, ∃ info, infos.lookup (key (T.parent^[n] u)) = some info ∧
    info.parent = key (T.parent (T.parent^[n] u)) ∧
    (T.parent^[n] u ≠ T.root → info.res.port = T.port (T.parent^[n] u))

/-- The routers `world` with the keys `key` have settled into the tree `T`. -/
structure Settled (T : PortTree V UInt64) (key : V → Key) (world : V → World) : Prop where
  key_injective : Function.Injective key
  pubkey : ∀ v, (world v).router.pubkey = key v
  port_ne_zero : ∀ v, v ≠ T.root → T.port v ≠ 0
  depth_le : ∀ v, T.depth v ≤ 128
  /-- Links are to other routers of the tree. -/
  neighbour : ∀ v, ∀ e ∈ (world v).links.entries, ∃ u, e.peer = key u
  /-- The infos of a router, of its neighbours and of all their ancestors are known and
  true. -/
  infos : ∀ v u, u = v ∨ (world v).links.hasPeer (key u) = true →
    Lineage T key (world v).router.tree.infos u
  /-- Every edge has a link on both ends. -/
  up : ∀ v, v ≠ T.root → (world v).links.hasPeer (key (T.parent v)) = true
  down : ∀ v, v ≠ T.root → (world (T.parent v)).links.hasPeer (key v) = true
  /-- Links are live: they are registered, and no two have the same id. -/
  registered : ∀ v, ∀ e ∈ (world v).links.entries, e.id ∈ (world v).router.tree.links
  nodup : ∀ v, (world v).links.ids.Nodup

namespace Settled

variable {T : PortTree V UInt64} {key : V → Key} {world : V → World}

/-! ### Coordinates -/

section Coordinates

variable {infos : Assoc Key Info} (hkey : Function.Injective key)

omit [Crypto] in
theorem depth_iterate (T : PortTree V UInt64) (v : V) (n : Nat) :
    T.depth (T.parent^[n] v) = T.depth v - n := by
  induction n with
  | zero => rfl
  | succ n ih =>
    rw [Function.iterate_succ_apply']
    by_cases hroot : T.parent^[n] v = T.root
    · rw [hroot, T.depth_root] at ih
      rw [hroot, T.parent_root, T.depth_root]
      omega
    · have := T.depth_parent _ hroot
      omega

include hkey in
omit [Crypto] in
/-- The walk of `root_path_for` up the tree collects the coordinates. -/
theorem rootPathLoop_eq (u : V) (hinfos : Lineage T key infos u) (fuel : Nat)
    (hfuel : T.depth u < fuel) (ports : List UInt64) (seen : List Key)
    (hseen : ∀ n, key (T.parent^[n] u) ∉ seen) :
    TreeState.rootPathLoop infos fuel ports seen (key u) = some (T.coords u ++ ports) := by
  induction u using T.inductionOn generalizing fuel ports seen with
  | hroot =>
    obtain ⟨fuel, rfl⟩ := Nat.exists_eq_add_one_of_ne_zero (Nat.ne_zero_of_lt hfuel)
    obtain ⟨info, hlookup, hparent, -⟩ := hinfos 0
    rw [Function.iterate_zero, id, T.parent_root] at hparent
    have hseen₀ : key T.root ∉ seen := hseen 0
    have hlookup₀ : infos.lookup (key T.root) = some info := hlookup
    rw [TreeState.rootPathLoop, if_neg hseen₀, hlookup₀]
    simp [hparent]
  | hstep u hu ih =>
    obtain ⟨fuel, rfl⟩ := Nat.exists_eq_add_one_of_ne_zero (Nat.ne_zero_of_lt hfuel)
    have hdepth := T.depth_parent u hu
    obtain ⟨info, hlookup, hparent, hport⟩ := hinfos 0
    have hne : key u ≠ info.parent := by
      rw [hparent]
      intro heq
      have : u = T.parent u := hkey heq
      rw [← this] at hdepth
      omega
    have hport : info.res.port = T.port u := hport hu
    have hseen₀ : key u ∉ seen := hseen 0
    have hlookup₀ : infos.lookup (key u) = some info := hlookup
    rw [TreeState.rootPathLoop, if_neg hseen₀, hlookup₀]
    simp only [if_neg hne]
    rw [hport, hparent]
    show TreeState.rootPathLoop infos fuel (T.port u :: ports) (key u :: seen) (key (T.parent u)) = _
    rw [ih (fun n => hinfos (n + 1)) fuel (by omega), T.coords_of_ne hu, List.append_assoc]
    · rfl
    · intro n
      refine List.not_mem_cons_of_ne_of_not_mem ?_ (hseen (n + 1))
      intro heq
      have hdeep := depth_iterate T (T.parent u) n
      rw [hkey heq] at hdeep
      omega

include hkey in
omit [Crypto] in
/-- A router that knows a node and its ancestors computes the node's coordinates. -/
theorem rootPathFor_eq (u : V) (hinfos : Lineage T key infos u) :
    TreeState.rootPathFor infos (key u) = some (T.coords u) := by
  -- The ancestors are different keys of the table, so the fuel lasts.
  have hfuel : T.depth u < infos.keys.length + 1 := by
    have hsub : (List.range (T.depth u)).map (fun n => key (T.parent^[n] u)) ⊆ infos.keys := by
      intro k hk
      obtain ⟨n, -, rfl⟩ := List.mem_map.mp hk
      obtain ⟨info, hlookup, -⟩ := hinfos n
      exact AList.mem_keys.mpr (Assoc.mem_iff_lookup.mpr ⟨info, hlookup⟩)
    have hnodup : ((List.range (T.depth u)).map fun n => key (T.parent^[n] u)).Nodup := by
      refine List.nodup_range.map_on fun m hm n hn heq => ?_
      rw [List.mem_range] at hm hn
      have hm' := depth_iterate T u m
      have hn' := depth_iterate T u n
      rw [hkey heq] at hm'
      omega
    have hlen := (hnodup.subperm hsub).length_le
    rw [List.length_map, List.length_range] at hlen
    omega
  rw [TreeState.rootPathFor, rootPathLoop_eq hkey u hinfos _ hfuel [] [] (by simp), List.append_nil]

end Coordinates

variable (h : Settled T key world)

include h

theorem rootPathFor_self (v : V) :
    TreeState.rootPathFor (world v).router.tree.infos (key v) = some (T.coords v) :=
  rootPathFor_eq h.key_injective v (h.infos v v (.inl rfl))

theorem rootPathFor_neighbour {v u : V} (hpeer : (world v).links.hasPeer (key u) = true) :
    TreeState.rootPathFor (world v).router.tree.infos (key u) = some (T.coords u) :=
  rootPathFor_eq h.key_injective u (h.infos v u (.inr hpeer))

theorem coordsDist_toNat (u d : V) :
    (coordsDist (T.coords d) (T.coords u)).toNat = T.dist u d := by
  have hle := prefixDist_le (T.coords d) (T.coords u)
  rw [T.length_coords, T.length_coords] at hle
  have hu := h.depth_le u
  have hd := h.depth_le d
  show (UInt64.ofNat (prefixDist (T.coords d) (T.coords u))).toNat = _
  rw [T.dist_eq, UInt64.toNat_ofNat', Nat.mod_eq_of_lt (by omega)]

theorem hasPeer_of_adj {v u : V} (hadj : T.Adj v u) : (world v).links.hasPeer (key u) = true := by
  rcases hadj with ⟨hv, rfl⟩ | ⟨hu, rfl⟩
  · exact h.up v hv
  · exact h.down u hu

/-! ### Hops -/

/-- Away from its destination, a packet below its watermark goes to a closer neighbour. -/
theorem hop_closer {v d : V} (hne : v ≠ d) {watermark : UInt64}
    (hbelow : T.dist v d < watermark.toNat) :
    ∃ id u, (world v).hop (T.coords d) watermark =
        some (id, coordsDist (T.coords d) (T.coords v)) ∧
      (world v).links.peerOf id = some (key u) ∧ T.dist u d < T.dist v d := by
  have hself := h.rootPathFor_self v
  rw [← h.pubkey v] at hself
  have hlt : coordsDist (T.coords d) (T.coords v) < watermark := by
    rw [UInt64.lt_iff_toNat_lt, h.coordsDist_toNat]
    exact hbelow
  -- The tree has a closer neighbour, so there is a next hop.
  obtain ⟨c, hadj, hcloser⟩ := T.exists_closer hne
  obtain ⟨e, he, hpeer⟩ := LinkSet.hasPeer_iff.mp (h.hasPeer_of_adj hadj)
  have hpath : TreeState.rootPathFor (world v).router.tree.infos e.peer = some (T.coords c) := by
    rw [hpeer]
    exact h.rootPathFor_neighbour (h.hasPeer_of_adj hadj)
  have hdist : coordsDist (T.coords d) (T.coords c) < coordsDist (T.coords d) (T.coords v) := by
    rw [UInt64.lt_iff_toNat_lt, h.coordsDist_toNat, h.coordsDist_toNat, T.dist_eq, T.dist_eq]
    omega
  obtain ⟨id, hid⟩ := Option.isSome_iff_exists.mp
    (TreeState.nextHop_isSome he hpath hdist (h.registered v e he))
  -- Whichever it is, it is closer too.
  obtain ⟨k, kp, hlink, hkp, hkdist⟩ := TreeState.nextHop_closer hid
  have he' := LinkSet.mem_linksTo.mp hlink
  obtain ⟨u, hu⟩ := h.neighbour v _ he'
  have hpeer' : (world v).links.hasPeer (key u) = true := LinkSet.hasPeer_iff.mpr ⟨_, he', hu⟩
  change k = key u at hu
  rw [hu, h.rootPathFor_neighbour hpeer'] at hkp
  cases hkp
  rw [UInt64.lt_iff_toNat_lt, h.coordsDist_toNat, h.coordsDist_toNat] at hkdist
  refine ⟨id, u, ?_, ?_, hkdist⟩
  · rw [World.hop_eq_some, TreeState.greedyNext, hself]
    dsimp only
    rw [if_pos hlt, hid]
  · exact hu ▸ LinkSet.peerOf_of_mem (h.nodup v) he'

/-- At its destination a packet has no next hop. -/
theorem hop_arrived (d : V) (watermark : UInt64) :
    (world d).hop (T.coords d) watermark = none := by
  cases hhop : (world d).hop (T.coords d) watermark with
  | none => rfl
  | some x =>
    obtain ⟨id, watermark'⟩ := x
    have hself := h.rootPathFor_self d
    rw [← h.pubkey d] at hself
    rw [World.hop_eq_some, TreeState.greedyNext, hself] at hhop
    dsimp only at hhop
    split_ifs at hhop
    · obtain ⟨hnext, -⟩ := Prod.mk.inj hhop
      obtain ⟨k, kp, -, -, hdist⟩ := TreeState.nextHop_closer hnext
      rw [UInt64.lt_iff_toNat_lt, h.coordsDist_toNat, T.dist_eq, prefixDist_self] at hdist
      omega
    · cases (Prod.mk.inj hhop).1

theorem portable_coords (v : V) : Portable (T.coords v) where
  length_le := by
    rw [T.length_coords]
    exact h.depth_le v
  ne_zero port hport := by
    obtain ⟨u, hu, rfl⟩ := T.mem_coords hport
    exact h.port_ne_zero u hu

end Settled

/-! ## Packets -/

/-- The first hop of a packet that `route_traffic` is given, and the frame it leaves in. -/
def World.originate (w : World) (dest : Key) (path : List UInt64) (payload : Bytes) :
    Option (LinkId × Bytes) :=
  (w.hop path maxU64).map fun hop =>
    (hop.1, Traffic.bytes
      { path, «from» := w.router.coords, source := w.router.pubkey, dest, watermark := hop.2, payload })

/-- That is all `route_traffic` does, and without a next hop it does nothing. -/
theorem routeTraffic_originate (w : World) (dest : Key) (path : List UInt64) (payload : Bytes) :
    routeTraffic dest path payload w =
      match w.originate dest path payload with
      | some (id, b) => writeVia id .traffic b w
      | none => (.ok (), w) := by
  rw [routeTraffic, router, Prog.gets_bind, World.originate, run_bind]
  generalize htr : Traffic.mk path _ _ dest maxU64 payload = tr
  have hroute : w.hop path maxU64 = w.hop tr.path tr.watermark := by rw [← htr]
  rw [hroute]
  cases hhop : w.hop tr.path tr.watermark with
  | none =>
    rw [forward_arrived tr hhop]
    rfl
  | some hop =>
    obtain ⟨id, watermark⟩ := hop
    rw [forward_hop tr hhop, run_bind, ← htr]
    dsimp only [Option.map_some]
    generalize writeVia id .traffic _ w = r
    obtain ⟨r, w'⟩ := r
    cases r <;> rfl

/-- What a router hands to its session layer of a traffic frame. -/
def World.delivers (w : World) (payload : Bytes) : Option (Key × Bytes) :=
  match Traffic.decode payload with
  | .ok tr =>
      if (w.hop tr.path tr.watermark).isNone ∧ tr.dest = w.router.pubkey then
        some (tr.source, tr.payload)
      else none
  | .error _ => none

/-- What it does with it. -/
theorem handleFrame_delivers {w : World} {conn : LinkId} {peer src : Key} {payload data : Bytes}
    (h : w.delivers payload = some (src, data)) :
    handleFrame conn peer payload .traffic w =
      (refreshPath src >>= fun _ => handleSessionBytes netSend src data) w := by
  unfold World.delivers at h
  split at h
  · rename_i tr htr
    split_ifs at h with hmine
    cases h
    rw [handleFrame, htr]
    show handleInboundTraffic tr w = _
    rw [handleInboundTraffic, run_bind_ok (forward_arrived tr (Option.isNone_iff_eq_none.mp hmine.1)),
      if_neg Bool.false_ne_true, router, Prog.gets_bind, if_pos hmine.2]
  · cases h

/-- The frame reaches the session layer, and that is all. -/
def World.HandsUp (w : World) (frame : Bytes) (src : Key) (data : Bytes) : Prop :=
  ∀ conn peer, handleFrame conn peer frame .traffic w =
    (refreshPath src >>= fun _ => handleSessionBytes netSend src data) w

/-- The frame does not reach the session layer: it is sent on, reported or dropped. -/
def World.KeepsOut (w : World) (frame : Bytes) : Prop :=
  ∀ conn peer, (∃ id b, handleFrame conn peer frame .traffic w = writeVia id .traffic b w) ∨
    (∃ broken, handleFrame conn peer frame .traffic w = handleBroken netSend broken w) ∨
    handleFrame conn peer frame .traffic w = (.ok (), w)

theorem keepsOut_of_delivers {w : World} {frame : Bytes} (h : w.delivers frame = none) :
    w.KeepsOut frame := by
  intro conn peer
  unfold World.delivers at h
  split at h
  · rename_i tr htr
    have hrun : handleFrame conn peer frame .traffic w = handleInboundTraffic tr w := by
      rw [handleFrame, htr]
      rfl
    rw [hrun]
    cases hhop : w.hop tr.path tr.watermark with
    | some hop => exact .inl ⟨_, _, handleInboundTraffic_hop hhop⟩
    | none =>
      have hother : tr.dest ≠ w.router.pubkey := fun hmine => by simp [hhop, hmine] at h
      refine .inr (.inl ⟨⟨tr.from, maxU64, tr.source, tr.dest⟩, ?_⟩)
      rw [handleInboundTraffic, run_bind_ok (forward_arrived tr hhop), if_neg Bool.false_ne_true,
        router, Prog.gets_bind, if_neg hother]
  · rename_i e he
    cases Traffic.decode_refuses frame e he
    rw [handleFrame, he]
    exact .inr (.inr rfl)

section Travel

variable (key : V → Key) (world : V → World)

/-- In so many hops the frame gets from one router to another, as it is read there. Each router
on the way writes it to the next and does nothing else with it. -/
inductive Travels : Nat → V → Bytes → V → Bytes → Prop where
  | here (v : V) (b : Bytes) : Travels 0 v b v b
  | hop {n : Nat} {v u x : V} {id : LinkId} {b b' b'' : Bytes} :
      (world v).relay .traffic b = some (id, b') →
      (∀ conn peer, handleFrame conn peer b .traffic (world v) =
        writeVia id .traffic b' (world v)) →
      (world v).links.peerOf id = some (key u) →
      Travels n u b' x b'' → Travels (n + 1) v b x b''

/-- After so many hops, the frame in which `s` sent a payload is at `v`. -/
def Sent (s : V) (dest : Key) (path : List UInt64) (payload : Bytes) (n : Nat) (v : V)
    (frame : Bytes) : Prop :=
  ∃ m id b u, n = m + 1 ∧ (world s).originate dest path payload = some (id, b) ∧
    routeTraffic dest path payload (world s) = writeVia id .traffic b (world s) ∧
    (world s).links.peerOf id = some (key u) ∧ Travels key world m u b v frame

end Travel

section

variable {T : PortTree V UInt64} {key : V → Key} {world : V → World}

theorem relay_traffic {w : World} {tr : Traffic} (hpath : Portable tr.path)
    (hfrom : Portable tr.from) {id : LinkId} {watermark : UInt64}
    (h : w.hop tr.path tr.watermark = some (id, watermark)) :
    w.relay .traffic tr.bytes = some (id, { tr with watermark }.bytes) := by
  rw [World.relay, Traffic.decode_bytes tr hpath hfrom]
  dsimp only
  rw [h]
  rfl

/-- A frame arrives wherever it is, in no more hops than the tree needs. -/
theorem Settled.travels (h : Settled T key world) {d : V} (v : V) (tr : Traffic)
    (hpath : tr.path = T.coords d) (hdest : tr.dest = key d) (hfrom : Portable tr.from)
    (hbelow : T.dist v d < tr.watermark.toNat) :
    ∃ n frame, n ≤ T.dist v d ∧ Travels key world n v tr.bytes d frame ∧
      (world d).delivers frame = some (tr.source, tr.payload) := by
  have hportable : Portable tr.path := hpath ▸ h.portable_coords d
  induction hn : T.dist v d using Nat.strong_induction_on generalizing v tr with
  | _ n ih =>
    by_cases hv : v = d
    · subst hv
      refine ⟨0, tr.bytes, Nat.zero_le _, .here v _, ?_⟩
      rw [World.delivers, Traffic.decode_bytes tr hportable hfrom]
      dsimp only
      rw [hpath, h.hop_arrived, hdest, h.pubkey, if_pos ⟨rfl, rfl⟩]
    · obtain ⟨id, u, hhop, hpeer, hcloser⟩ := h.hop_closer hv hbelow
      obtain ⟨watermark, hwatermark⟩ : ∃ x, x = coordsDist (T.coords d) (T.coords v) := ⟨_, rfl⟩
      rw [← hwatermark, ← hpath] at hhop
      have hbelow' : T.dist u d < watermark.toNat := by
        rw [hwatermark, h.coordsDist_toNat]
        exact hcloser
      obtain ⟨m, frame, hm, htravels, hdelivers⟩ := ih (T.dist u d) (by omega) u
        { tr with watermark } hpath hdest hfrom hbelow' hportable rfl
      have hrelay := relay_traffic hportable hfrom hhop
      exact ⟨m + 1, frame, by omega,
        .hop hrelay (fun _ _ => handleFrame_relay hrelay) hpeer htravels, hdelivers⟩

/-- A frame is only ever delivered where it is addressed to. -/
theorem Settled.delivered_at (h : Settled T key world) {n : Nat} {v x : V} {b frame : Bytes}
    {d : V} {tr : Traffic} (htr : Traffic.decode b = .ok tr) (hdest : tr.dest = key d)
    (htravels : Travels key world n v b x frame) {r : Key × Bytes}
    (hdelivers : (world x).delivers frame = some r) : x = d := by
  induction htravels generalizing tr with
  | here v b =>
    rw [World.delivers, htr] at hdelivers
    dsimp only at hdelivers
    split_ifs at hdelivers with hmine
    exact h.key_injective (by rw [← h.pubkey, ← hmine.2, hdest])
  | hop hrelay _ _ _ ih =>
    rw [World.relay, htr] at hrelay
    obtain ⟨⟨id, watermark⟩, -, heq⟩ := Option.map_eq_some_iff.mp hrelay
    cases heq
    obtain ⟨hpath, hfrom⟩ := Traffic.portable_of_decode htr
    exact ih (Traffic.decode_bytes { tr with watermark } hpath hfrom) hdest hdelivers

theorem Settled.coords_eq (h : Settled T key world) (s : V) :
    (world s).router.coords = T.coords s := by
  rw [Router.coords, h.pubkey, h.rootPathFor_self]
  rfl

/-- **A settled tree delivers every packet but those a router sends to itself**: it reaches the
session layer of its destination within as many hops as the tree has between the two, and no
other. -/
theorem settled_delivers_iff (h : Settled T key world) (s d : V) (payload : Bytes) :
    ((∃ n frame, n ≤ T.dist s d ∧ Sent key world s (key d) (T.coords d) payload n d frame ∧
        (world d).delivers frame = some (key s, payload) ∧
        (world d).HandsUp frame (key s) payload) ∧
      ∀ n v frame, Sent key world s (key d) (T.coords d) payload n v frame → v ≠ d →
        (world v).delivers frame = none ∧ (world v).KeepsOut frame) ↔ s ≠ d := by
  have hmax : ∀ u, T.dist u d < maxU64.toNat := by
    intro u
    rw [← h.coordsDist_toNat, h.coordsDist_toNat, T.dist_eq]
    have hle := prefixDist_le (T.coords d) (T.coords u)
    rw [T.length_coords, T.length_coords] at hle
    have hu := h.depth_le u
    have hd := h.depth_le d
    have : maxU64.toNat = 2 ^ 64 - 1 := rfl
    omega
  constructor
  · rintro ⟨⟨n, frame, -, ⟨m, id, b, u, -, horiginate, -⟩, -⟩, -⟩ rfl
    rw [World.originate, h.hop_arrived] at horiginate
    cases horiginate
  · intro hne
    obtain ⟨id, u, hhop, hpeer, hcloser⟩ := h.hop_closer hne (hmax s)
    obtain ⟨watermark, hwatermark⟩ : ∃ x, x = coordsDist (T.coords d) (T.coords s) := ⟨_, rfl⟩
    rw [← hwatermark] at hhop
    obtain ⟨tr, htr⟩ : ∃ tr : Traffic, tr =
      { path := T.coords d, «from» := T.coords s, source := key s, dest := key d, watermark,
        payload } := ⟨_, rfl⟩
    have horiginate : (world s).originate (key d) (T.coords d) payload = some (id, tr.bytes) := by
      rw [World.originate, hhop, h.coords_eq, h.pubkey, htr]
      rfl
    have hdecode : Traffic.decode tr.bytes = .ok tr :=
      Traffic.decode_bytes tr (htr ▸ h.portable_coords d) (htr ▸ h.portable_coords s)
    constructor
    · have hbelow : T.dist u d < tr.watermark.toNat := by
        rw [htr, hwatermark, h.coordsDist_toNat]
        exact hcloser
      obtain ⟨m, frame, hm, htravels, hdelivers⟩ := h.travels u tr (htr ▸ rfl) (htr ▸ rfl)
        (htr ▸ h.portable_coords s) hbelow
      have hroute : routeTraffic (key d) (T.coords d) payload (world s) =
          writeVia id .traffic tr.bytes (world s) := by
        rw [routeTraffic_originate, horiginate]
      rw [htr] at hdelivers
      exact ⟨m + 1, frame, by omega, ⟨m, id, _, u, rfl, horiginate, hroute, hpeer, htravels⟩,
        hdelivers, fun _ _ => handleFrame_delivers hdelivers⟩
    · rintro n v frame ⟨m, id', b, u', -, horiginate', -, -, htravels⟩ hv
      cases horiginate.symm.trans horiginate'
      have hnone : (world v).delivers frame = none :=
        Option.eq_none_iff_forall_ne_some.mpr fun r hdelivers =>
          hv (h.delivered_at hdecode (htr ▸ rfl) htravels hdelivers)
      exact ⟨hnone, keepsOut_of_delivers hnone⟩

end

end

/-! ## Two routers -/

section

attribute [local instance] Sample.lenient

/-- The announce of the node with key 9 below the root with key 3. -/
def lowChild : Announce where
  key := smallKey 9
  parent := smallKey 3
  res := lowAnswer ⟨1, 0⟩
  sig := Crypto.sign (smallKey 9) []

/-- The root with key 3 after it heard from its child. -/
def rootWorld : World :=
  (World.init (smallKey 3) (.even 1)).run
    [.connect (smallKey 9) 0 true, .maintain, .frame 0 .announce lowChild.encode]

/-- The tree of a root and its child. -/
def pair : PortTree Bool UInt64 where
  root := false
  parent _ := false
  port _ := 5
  depth v := if v then 1 else 0
  parent_root := rfl
  depth_root := rfl
  depth_parent v h := by
    cases v with
    | false => exact absurd rfl h
    | true => rfl
  port_inj u v hu hv _ _ := by
    cases u <;> cases v <;> first | rfl | exact absurd rfl hu | exact absurd rfl hv

def pairKey (v : Bool) : Key := if v then smallKey 9 else smallKey 3

def pairWorld (v : Bool) : World := if v then answered.act .maintain else rootWorld

theorem pair_facts : ∀ v,
    (pairWorld v).router.pubkey = pairKey v ∧
    (pairWorld v).links.entries = [⟨0, pairKey !v⟩] ∧ 0 ∈ (pairWorld v).router.tree.links ∧
    ((pairWorld v).router.tree.infos.lookup (pairKey false)).map Info.parent =
      some (pairKey false) ∧
    ((pairWorld v).router.tree.infos.lookup (pairKey true)).map (fun i => (i.parent, i.res.port)) =
      some (pairKey false, 5) := by decide +kernel

theorem pair_lineage (v u : Bool) : Lineage pair pairKey (pairWorld v).router.tree.infos u := by
  obtain ⟨-, -, -, hroot, hchild⟩ := pair_facts v
  obtain ⟨info, hinfo, hparent⟩ := Option.map_eq_some_iff.mp hroot
  obtain ⟨info', hinfo', heq⟩ := Option.map_eq_some_iff.mp hchild
  obtain ⟨hparent', hport'⟩ := Prod.mk.inj heq
  intro n
  cases hx : pair.parent^[n] u with
  | false => exact ⟨info, hinfo, hparent, fun h => absurd rfl h⟩
  | true => exact ⟨info', hinfo', hparent', fun _ => hport'⟩

theorem pair_settled : Settled pair pairKey pairWorld where
  key_injective := by decide +kernel
  pubkey v := (pair_facts v).1
  port_ne_zero := by decide
  depth_le := by decide
  neighbour v e he := by
    rw [(pair_facts v).2.1, List.mem_singleton] at he
    exact ⟨!v, he ▸ rfl⟩
  infos v u _ := pair_lineage v u
  up v hv := LinkSet.hasPeer_iff.mpr ⟨⟨0, pairKey !v⟩, by simp [(pair_facts v).2.1], by
    cases v with
    | false => exact absurd rfl hv
    | true => rfl⟩
  down v hv := LinkSet.hasPeer_iff.mpr ⟨⟨0, pairKey true⟩, by
    rw [(pair_facts (pair.parent v)).2.1]
    exact List.mem_singleton.mpr rfl, by
    cases v with
    | false => exact absurd rfl hv
    | true => rfl⟩
  registered v e he := by
    rw [(pair_facts v).2.1, List.mem_singleton] at he
    rw [he]
    exact (pair_facts v).2.2.1
  nodup v := by simp [LinkSet.ids, (pair_facts v).2.1]

/-- A packet of the root for itself leaves `route_traffic` without having gone anywhere. -/
theorem self_packet_is_dropped :
    Settled pair pairKey pairWorld ∧
      routeTraffic (pairKey false) (pair.coords false) [1] (pairWorld false) =
        (.ok (), pairWorld false) ∧
      ¬ ∃ n frame, Sent pairKey pairWorld false (pairKey false) (pair.coords false) [1] n false frame ∧
        (pairWorld false).delivers frame = some (pairKey false, [1]) := by
  have hnone : (pairWorld false).originate (pairKey false) (pair.coords false) [1] = none := by
    rw [World.originate, pair_settled.hop_arrived]
    rfl
  refine ⟨pair_settled, ?_, ?_⟩
  · rw [routeTraffic_originate, hnone]
  · rintro ⟨n, frame, ⟨m, id, b, u, -, horiginate, -⟩, -⟩
    cases hnone.symm.trans horiginate

/-- A packet of the child for the root arrives. -/
theorem settled_delivers_pair :
    ∃ n frame, n ≤ pair.dist true false ∧
      Sent pairKey pairWorld true (pairKey false) (pair.coords false) [1] n false frame ∧
      (pairWorld false).delivers frame = some (pairKey true, [1]) ∧
      (pairWorld false).HandsUp frame (pairKey true) [1] :=
  ((settled_delivers_iff pair_settled true false [1]).mpr nofun).1

end

end Roots

import Roots.Crypto.Sample
import Roots.Router.Driver
import Roots.Router.Fanout

/-!
# Roots.Router.Requests

`send_all_reqs` drops every answer and asks all peers anew, one after the other and each on
all of its links. Both loops end at the first socket that refuses a request, so **the peers
behind it are not asked**, and neither are the other links of its own peer. `World.round`
lists the writes of a round with the readings that decide them, and `asked_iff` says exactly
when every peer that keeps a link has its open request on one of them.
-/

namespace Roots

open Prog RouterM Wire
open Sample (smallKey)

/-! ## Rounds -/

/-- One write of a round of requests, with the number of the reading that decides it. -/
structure Turn where
  tick : Nat
  peer : Key
  link : LinkId

namespace LinkSet

/-- The writes of `send_req`: one reading draws the nonce, and each link takes two. -/
def turnsTo (links : LinkSet) (tick : Nat) (peer : Key) : List Turn :=
  (links.linksTo peer).mapIdx fun j id => ⟨tick + 1 + 2 * j, peer, id⟩

/-- The writes to a list of peers, as long as all of them are taken. -/
def turns (links : LinkSet) : Nat → List Key → List Turn
  | _, [] => []
  | tick, k :: keys =>
      links.turnsTo tick k ++ links.turns (tick + 2 + 2 * (links.linksTo k).length) keys

theorem peer_of_mem_turnsTo {links : LinkSet} {tick : Nat} {peer : Key} {x : Turn}
    (h : x ∈ links.turnsTo tick peer) : x.peer = peer := by
  obtain ⟨j, hj, rfl⟩ := List.mem_mapIdx.mp h
  rfl

theorem exists_mem_turnsTo {links : LinkSet} {tick : Nat} {peer : Key} {id : LinkId} :
    (∃ x ∈ links.turnsTo tick peer, x.link = id) ↔ id ∈ links.linksTo peer := by
  constructor
  · rintro ⟨x, hx, rfl⟩
    obtain ⟨j, hj, rfl⟩ := List.mem_mapIdx.mp hx
    exact List.getElem_mem hj
  · intro hid
    obtain ⟨j, hj, rfl⟩ := List.mem_iff_getElem.mp hid
    exact ⟨_, List.mem_mapIdx.mpr ⟨j, hj, rfl⟩, rfl⟩

/-- The writes up to a link, the one to it, and the ones after it. -/
theorem turnsTo_split {links : LinkSet} {peer : Key} {done rest : List LinkId} {id : LinkId}
    (h : links.linksTo peer = done ++ id :: rest) (tick : Nat) :
    ∃ before after, links.turnsTo tick peer =
        before ++ ⟨tick + 1 + 2 * done.length, peer, id⟩ :: after ∧
      before.map Turn.link = done ∧ after.map Turn.link = rest ∧
      ∀ x ∈ before, ∃ j < done.length, x.tick = tick + 1 + 2 * j := by
  refine ⟨done.mapIdx fun j id => ⟨tick + 1 + 2 * j, peer, id⟩,
    rest.mapIdx fun j id => ⟨tick + 1 + 2 * (j + 1 + done.length), peer, id⟩, ?_, ?_, ?_, ?_⟩
  · rw [turnsTo, h, List.mapIdx_append, List.mapIdx_cons, Nat.zero_add]
  · exact List.ext_getElem (by simp) (by simp)
  · exact List.ext_getElem (by simp) (by simp)
  · rintro x hx
    obtain ⟨j, hj, rfl⟩ := List.mem_mapIdx.mp hx
    exact ⟨j, hj, rfl⟩

theorem mem_turns {links : LinkSet} {keys : List Key} {tick : Nat} {x : Turn}
    (h : x ∈ links.turns tick keys) : x.peer ∈ keys ∧ x.link ∈ links.linksTo x.peer := by
  induction keys generalizing tick with
  | nil => cases h
  | cons k keys ih =>
    rcases List.mem_append.mp h with hx | hx
    · obtain rfl := peer_of_mem_turnsTo hx
      exact ⟨List.mem_cons_self .., exists_mem_turnsTo.mp ⟨x, hx, rfl⟩⟩
    · exact ⟨List.mem_cons_of_mem _ (ih hx).1, (ih hx).2⟩

theorem exists_mem_turns {links : LinkSet} {keys : List Key} (tick : Nat) {peer : Key}
    {id : LinkId} (hpeer : peer ∈ keys) (hid : id ∈ links.linksTo peer) :
    ∃ x ∈ links.turns tick keys, x.peer = peer := by
  induction keys generalizing tick with
  | nil => cases hpeer
  | cons k keys ih =>
    rcases List.mem_cons.mp hpeer with rfl | hpeer
    · obtain ⟨x, hx, -⟩ := exists_mem_turnsTo.mpr hid
      exact ⟨x, List.mem_append_left _ hx, peer_of_mem_turnsTo hx⟩
    · obtain ⟨x, hx, hxp⟩ := ih _ hpeer
      exact ⟨x, List.mem_append_right _ hx, hxp⟩

theorem turns_congr {links links' : LinkSet} (h : links'.entries = links.entries) (tick : Nat)
    (keys : List Key) : links'.turns tick keys = links.turns tick keys := by
  induction keys generalizing tick with
  | nil => rfl
  | cons k keys ih => simp only [turns, turnsTo, linksTo_congr h, ih]

end LinkSet

section

variable [Crypto]

/-- The writes of `send_all_reqs`, as long as all of them are taken. -/
def World.round (w : World) : List Turn := w.links.turns w.tick (sortKeys w.links.peers)

/-- Every peer that has a link and an open request in `w'` has had that request written to one
of its links since `w`. -/
def World.Asked (w w' : World) : Prop :=
  ∀ p st, w'.links.hasPeer p = true → w'.router.tree.peers.lookup p = some st →
    ∃ id ∈ w'.links.linksTo p, .wrote id .sigReq st.req.encode ∈ w'.events.drop w.events.length

/-- After the first request that a socket refuses, none is left to be written to a registered
peer that has not been sent one before it. -/
def World.NoneStarved (w : World) : Prop :=
  ∀ x ∈ (w.round.dropWhile fun x => w.env.writes x.tick).tail, x.peer ∈ w.router.tree.peers →
    x.peer ∈ (w.round.takeWhile fun x => w.env.writes x.tick).map Turn.peer

/-! ## One request -/

/-- `send_req` opened a request and wrote it on the links. -/
structure Opened (k : Key) (req : SigReq) (ids : List LinkId) (w w' : World) : Prop where
  peers : w'.router.tree.peers = w.router.tree.peers.modify k fun p => { p with req := req }
  events : w'.events = w.events ++ ids.map fun id => .wrote id .sigReq req.encode
  env : w'.env = w.env

/-- `send_req` reaches every link of the peer, or stops at the first that refuses. -/
theorem sendReq_cases {w : World} {k : Key} (hlinked : w.links.linksTo k ≠ []) :
    ∃ req,
      (∃ w', sendReq k w = (.ok (), w') ∧ Opened k req (w.links.linksTo k) w w' ∧
        w'.links.entries = w.links.entries ∧
        w'.tick = w.tick + 2 + 2 * (w.links.linksTo k).length ∧
        ∀ x ∈ w.links.turnsTo w.tick k, w.env.writes x.tick = true) ∨
      ∃ done id rest w', w.links.linksTo k = done ++ id :: rest ∧
        sendReq k w = (.error (.err .io), w') ∧ Opened k req done w w' ∧
        w'.links.entries = (w.links.remove id).entries ∧
        ∃ before x after, w.links.turnsTo w.tick k = before ++ x :: after ∧
          before.map Turn.link = done ∧ after.map Turn.link = rest ∧
          (∀ y ∈ before, w.env.writes y.tick = true) ∧ w.env.writes x.tick = false := by
  obtain ⟨req, hreq⟩ : ∃ req, newReq w = (.ok req, { w with tick := w.tick + 1 }) := ⟨_, rfl⟩
  let w₁ : World := { w with
    tick := w.tick + 1
    router.tree.peers := w.router.tree.peers.modify k fun p => { p with req := req }
    router.tree.links := (w.links.linksTo k).foldl
      (fun m id => m.modify id fun l => { l with responded := false }) w.router.tree.links }
  refine ⟨req, ?_⟩
  rcases writeAll_cases (w := w₁) hlinked .sigReq req.encode with
    ⟨w', hwrite, hfan⟩ | ⟨done, id, rest, w', hsplit, hfan, hrefused, hwrite⟩
  · refine .inl ⟨{ w' with
      tick := w'.tick + 1
      router.tree.links := (w.links.linksTo k).foldl (fun m id =>
        m.modify id fun l => { l with sentAt := some (w'.env.now w'.tick) }) w'.router.tree.links },
      ?_, ⟨?_, hfan.events, hfan.env⟩, hfan.entries, ?_, fun x hx => ?_⟩
    · rw [sendReq, run_bind_ok hreq]
      exact run_bind_ok (result_ok hwrite)
    · exact congrArg (fun r => r.tree.peers) hfan.router
    · show w'.tick + 1 = _
      rw [hfan.tick]
      show w.tick + 1 + 2 * (w.links.linksTo k).length + 1 = _
      omega
    · obtain ⟨j, hj, rfl⟩ := List.mem_mapIdx.mp hx
      exact hfan.taken j hj
  · refine .inr ⟨done, id, rest, w'.refused id, hsplit, ?_, ⟨?_, hfan.events, hfan.env⟩, ?_, ?_⟩
    · rw [sendReq, run_bind_ok hreq]
      exact run_bind_ok (result_err hwrite)
    · exact congrArg (fun r => r.tree.peers) hfan.router
    · show w'.links.entries.eraseP _ = _
      rw [hfan.entries]
      rfl
    · obtain ⟨before, after, hturns, hbefore, hafter, hticks⟩ := LinkSet.turnsTo_split hsplit w.tick
      refine ⟨before, _, after, hturns, hbefore, hafter, fun y hy => ?_, ?_⟩
      · obtain ⟨j, hj, htick⟩ := hticks y hy
        rw [htick]
        exact hfan.taken j hj
      · rw [hfan.env, hfan.tick] at hrefused
        exact hrefused

/-! ## A round -/

/-- What asking some peers leaves as it was for another: its request, and its links but those
that are gone. -/
theorem forEach_sendReq_frame {keys : List Key} {w : World} (hids : w.links.ids.Nodup)
    (hlinked : ∀ k ∈ keys, w.links.linksTo k ≠ []) (hkeys : keys.Nodup) {p : Key} (hp : p ∉ keys) :
    (forEach keys sendReq w).2.router.tree.peers.lookup p = w.router.tree.peers.lookup p ∧
      (forEach keys sendReq w).2.links.linksTo p ⊆ w.links.linksTo p ∧
      ∃ es, (forEach keys sendReq w).2.events = w.events ++ es := by
  induction keys generalizing w with
  | nil => exact ⟨rfl, List.Subset.refl _, [], (List.append_nil _).symm⟩
  | cons k keys ih =>
    obtain ⟨hk, hkeys⟩ := List.nodup_cons.mp hkeys
    have hpk : p ≠ k := fun h => hp (h ▸ List.mem_cons_self ..)
    have hpeers : ∀ {req : SigReq} {ids : List LinkId} {w' : World}, Opened k req ids w w' →
        w'.router.tree.peers.lookup p = w.router.tree.peers.lookup p := fun h => by
      rw [h.peers, Assoc.lookup_modify, if_neg hpk]
    obtain ⟨req, ⟨w', hrun, hopen, hentries, -, -⟩ |
        ⟨done, id, rest, w', -, hrun, hopen, hentries, -⟩⟩ :=
      sendReq_cases (hlinked k (List.mem_cons_self ..))
    · have hrest : forEach (k :: keys) sendReq w = forEach keys sendReq w' := run_bind_ok hrun
      have hsame := LinkSet.linksTo_congr hentries
      obtain ⟨hlookup, hlinks, es, hes⟩ := ih (LinkSet.ids_congr hentries ▸ hids)
        (fun q hq => hsame q ▸ hlinked q (List.mem_cons_of_mem _ hq)) hkeys
        fun h => hp (List.mem_cons_of_mem _ h)
      rw [hrest]
      refine ⟨hlookup.trans (hpeers hopen), hsame p ▸ hlinks, ?_⟩
      exact ⟨_, by rw [hes, hopen.events, List.append_assoc]⟩
    · have hstop : forEach (k :: keys) sendReq w = (.error (.err .io), w') := run_bind_error hrun
      rw [hstop]
      refine ⟨hpeers hopen, fun i hi => ?_, _, hopen.events⟩
      rw [LinkSet.mem_linksTo, hentries, ← LinkSet.mem_linksTo, LinkSet.mem_linksTo_remove hids] at hi
      exact hi.1

/-- Which of the keys have been asked, counting the events from the `n`-th on. -/
def AskedIn (keys : List Key) (n : Nat) (w : World) : Prop :=
  ∀ p ∈ keys, ∀ st, w.links.hasPeer p = true → w.router.tree.peers.lookup p = some st →
    ∃ id ∈ w.links.linksTo p, .wrote id .sigReq st.req.encode ∈ w.events.drop n

theorem Opened.lookup {k : Key} {req : SigReq} {ids : List LinkId} {w w' : World}
    (h : Opened k req ids w w') {st : PeerState} (hst : w'.router.tree.peers.lookup k = some st) :
    st.req = req := by
  rw [h.peers, Assoc.lookup_modify, if_pos rfl] at hst
  obtain ⟨st₀, -, rfl⟩ := Option.map_eq_some_iff.mp hst
  rfl

theorem Opened.mem_peers {k p : Key} {req : SigReq} {ids : List LinkId} {w w' : World}
    (h : Opened k req ids w w') : p ∈ w'.router.tree.peers ↔ p ∈ w.router.tree.peers := by
  rw [h.peers, Assoc.mem_modify]

theorem Opened.drop_events {k : Key} {req : SigReq} {ids : List LinkId} {w w' : World}
    (h : Opened k req ids w w') {n : Nat} (hn : n ≤ w.events.length) :
    w'.events.drop n = w.events.drop n ++ ids.map fun id => .wrote id .sigReq req.encode := by
  rw [h.events, List.drop_append_of_le_length hn]

section Round

variable {k : Key} {keys : List Key} {req : SigReq} {n : Nat} {w w' : World}
  (hids : w.links.ids.Nodup) (hn : n ≤ w.events.length)
  (hfresh : ∀ p ∈ k :: keys, ∀ id ∈ w.links.linksTo p, ∀ b, .wrote id .sigReq b ∉ w.events.drop n)

include hids hn

omit hids in
/-- A peer that was asked on all of its links stays asked while the others are. -/
theorem askedIn_cons_of_ok (hopen : Opened k req (w.links.linksTo k) w w')
    (hentries : w'.links.entries = w.links.entries) {w'' : World}
    (hlookup : w''.router.tree.peers.lookup k = w'.router.tree.peers.lookup k)
    (hlinks : w''.links.linksTo k ⊆ w'.links.linksTo k) {es : List Event}
    (hes : w''.events = w'.events ++ es) : AskedIn (k :: keys) n w'' ↔ AskedIn keys n w'' := by
  refine ⟨fun h p hp => h p (List.mem_cons_of_mem _ hp), fun h p hp => ?_⟩
  rcases List.mem_cons.mp hp with rfl | hp
  · intro st hpeer hst
    obtain ⟨id, hid⟩ := List.exists_mem_of_ne_nil _ (LinkSet.linksTo_ne_nil.mpr hpeer)
    refine ⟨id, hid, ?_⟩
    have hold : id ∈ w.links.linksTo p := LinkSet.linksTo_congr hentries p ▸ hlinks hid
    have hlen : n ≤ w'.events.length := by
      rw [hopen.events, List.length_append]
      omega
    rw [hopen.lookup (hlookup ▸ hst), hes, List.drop_append_of_le_length hlen, hopen.drop_events hn]
    exact List.mem_append_left _ (List.mem_append_right _ (List.mem_map_of_mem hold))
  · exact h p hp

include hfresh

/-- A round that ends within the links of a peer. -/
theorem askedIn_of_stop (hk : k ∉ keys) {done rest : List LinkId} {id : LinkId}
    (hsplit : w.links.linksTo k = done ++ id :: rest) (hopen : Opened k req done w w')
    (hentries : w'.links.entries = (w.links.remove id).entries) :
    AskedIn (k :: keys) n w' ↔
      (k ∈ w.router.tree.peers → done = [] → rest = []) ∧
        ∀ p ∈ keys, w.links.linksTo p ≠ [] → p ∉ w.router.tree.peers := by
  have hlive : ∀ {p i}, i ∈ w'.links.linksTo p ↔ i ∈ w.links.linksTo p ∧ i ≠ id := by
    intro p i
    rw [LinkSet.mem_linksTo, hentries, ← LinkSet.mem_linksTo, LinkSet.mem_linksTo_remove hids]
  -- Only links of `k` were written, and these only before the refusal.
  have hwrote : ∀ {p i b}, p ∈ k :: keys → i ∈ w'.links.linksTo p →
      .wrote i .sigReq b ∈ w'.events.drop n → p = k ∧ i ∈ done := by
    intro p i b hp hi hmem
    rw [hopen.drop_events hn] at hmem
    rcases List.mem_append.mp hmem with hmem | hmem
    · exact absurd hmem (hfresh p hp i (hlive.mp hi).1 b)
    · obtain ⟨d, hd, heq⟩ := List.mem_map.mp hmem
      cases heq
      refine ⟨LinkSet.peer_unique hids (hlive.mp hi).1 ?_, hd⟩
      rw [hsplit]
      exact List.mem_append_left _ hd
  have hnodup : (done ++ id :: rest).Nodup := by
    rw [← hsplit]
    exact hids.sublist (List.filter_sublist.map _)
  constructor
  · intro hasked
    refine ⟨fun hreg hdone => ?_, fun p hp hlinked hreg => ?_⟩
    · by_contra hrest
      obtain ⟨i, hi⟩ := List.exists_mem_of_ne_nil _ hrest
      have hne : i ≠ id := by
        rintro rfl
        exact (List.nodup_cons.mp (hnodup.of_append_right)).1 hi
      have hi' : i ∈ w'.links.linksTo k := hlive.mpr ⟨by simp [hsplit, hi], hne⟩
      obtain ⟨st, hst⟩ := Assoc.mem_iff_lookup.mp (hopen.mem_peers.mpr hreg)
      obtain ⟨i', hi', hmem⟩ := hasked k (List.mem_cons_self ..) st
        (LinkSet.linksTo_ne_nil.mp (List.ne_nil_of_mem hi')) hst
      have hdone' := (hwrote (List.mem_cons_self ..) hi' hmem).2
      simp [hdone] at hdone'
    · obtain ⟨i, hi⟩ := List.exists_mem_of_ne_nil _ hlinked
      have hne : i ≠ id := by
        rintro rfl
        have hik : i ∈ w.links.linksTo k := by simp [hsplit]
        exact hk (LinkSet.peer_unique hids hi hik ▸ hp)
      obtain ⟨st, hst⟩ := Assoc.mem_iff_lookup.mp (hopen.mem_peers.mpr hreg)
      obtain ⟨i', hi', hmem⟩ := hasked p (List.mem_cons_of_mem _ hp) st
        (LinkSet.linksTo_ne_nil.mp (List.ne_nil_of_mem (hlive.mpr ⟨hi, hne⟩))) hst
      exact hk ((hwrote (List.mem_cons_of_mem _ hp) hi' hmem).1 ▸ hp)
  · rintro ⟨hself, hothers⟩ p hp st hpeer hst
    obtain ⟨i, hi⟩ := List.exists_mem_of_ne_nil _ (LinkSet.linksTo_ne_nil.mpr hpeer)
    obtain ⟨hold, hne⟩ := hlive.mp hi
    have hreg : p ∈ w.router.tree.peers :=
      hopen.mem_peers.mp (Assoc.mem_iff_lookup.mpr ⟨st, hst⟩)
    rcases List.mem_cons.mp hp with rfl | hp
    · rw [hopen.lookup hst]
      cases done with
      | nil =>
        rw [hsplit, hself hreg rfl] at hold
        exact absurd (List.mem_singleton.mp hold) hne
      | cons d done =>
        refine ⟨d, hlive.mpr ⟨by simp [hsplit], ?_⟩, ?_⟩
        · rintro rfl
          rw [List.cons_append] at hnodup
          exact (List.nodup_cons.mp hnodup).1 (by simp)
        · rw [hopen.drop_events hn]
          exact List.mem_append_right _ (List.mem_cons_self ..)
    · exact absurd hreg (hothers p hp (List.ne_nil_of_mem hold))

omit hids hn hfresh in
/-- The condition on the rest of the round says the same. -/
theorem starved_iff_of_stop (hk : k ∉ keys) {done rest : List LinkId} {before after : List Turn}
    {x : Turn} {tick tick' : Nat} (hturns : w.links.turnsTo tick k = before ++ x :: after)
    (hbefore : before.map Turn.link = done) (hafter : after.map Turn.link = rest) :
    (∀ y ∈ after ++ w.links.turns tick' keys, y.peer ∈ w.router.tree.peers →
        y.peer ∈ before.map Turn.peer) ↔
      (k ∈ w.router.tree.peers → done = [] → rest = []) ∧
        ∀ p ∈ keys, w.links.linksTo p ≠ [] → p ∉ w.router.tree.peers := by
  have hpeer : ∀ y ∈ before ++ x :: after, y.peer = k := fun y hy =>
    LinkSet.peer_of_mem_turnsTo (hturns ▸ hy)
  constructor
  · intro h
    refine ⟨fun hreg hdone => ?_, fun p hp hlinked hreg => ?_⟩
    · subst hbefore hafter
      rw [List.map_eq_nil_iff] at hdone ⊢
      by_contra hne
      obtain ⟨y, hy⟩ := List.exists_mem_of_ne_nil _ hne
      have hmem := h y (List.mem_append_left _ hy) (hpeer y (by simp [hy]) ▸ hreg)
      simp [hdone] at hmem
    · obtain ⟨i, hi⟩ := List.exists_mem_of_ne_nil _ hlinked
      obtain ⟨y, hy, rfl⟩ := LinkSet.exists_mem_turns tick' hp hi
      obtain ⟨z, hz, hzp⟩ := List.mem_map.mp (h y (List.mem_append_right _ hy) hreg)
      rw [hpeer z (List.mem_append_left _ hz)] at hzp
      exact hk (hzp ▸ hp)
  · rintro ⟨hself, hothers⟩ y hy hreg
    rcases List.mem_append.mp hy with hy | hy
    · have hyk := hpeer y (by simp [hy])
      have hne : before ≠ [] := by
        rintro rfl
        have hnil := hself (hyk ▸ hreg) hbefore.symm
        rw [← hafter, List.map_eq_nil_iff] at hnil
        simp [hnil] at hy
      obtain ⟨z, hz⟩ := List.exists_mem_of_ne_nil _ hne
      exact List.mem_map.mpr ⟨z, hz, (hpeer z (List.mem_append_left _ hz)).trans hyk.symm⟩
    · obtain ⟨hmem, hlink⟩ := LinkSet.mem_turns hy
      exact absurd hreg (hothers _ hmem (List.ne_nil_of_mem hlink))

end Round

/-- A round over some of the peers, none of which has been asked yet. -/
theorem askedIn_forEach {keys : List Key} {w : World} (hids : w.links.ids.Nodup)
    (hlinked : ∀ k ∈ keys, w.links.linksTo k ≠ []) (hkeys : keys.Nodup) {n : Nat}
    (hn : n ≤ w.events.length)
    (hfresh : ∀ p ∈ keys, ∀ id ∈ w.links.linksTo p, ∀ b,
      .wrote id .sigReq b ∉ w.events.drop n) :
    AskedIn keys n (forEach keys sendReq w).2 ↔
      ∀ x ∈ ((w.links.turns w.tick keys).dropWhile fun x => w.env.writes x.tick).tail,
        x.peer ∈ w.router.tree.peers →
          x.peer ∈ ((w.links.turns w.tick keys).takeWhile fun x => w.env.writes x.tick).map
            Turn.peer := by
  induction keys generalizing w with
  | nil => simp [AskedIn, LinkSet.turns]
  | cons k keys ih =>
    obtain ⟨hk, hkeys⟩ := List.nodup_cons.mp hkeys
    obtain ⟨req, ⟨w', hrun, hopen, hentries, htick, htaken⟩ |
      ⟨done, id, rest, w', hsplit, hrun, hopen, hentries, before, x, after, hturns, hbefore, hafter,
        htaken, hrefused⟩⟩ := sendReq_cases (hlinked k (List.mem_cons_self ..))
    · have hrest : forEach (k :: keys) sendReq w = forEach keys sendReq w' := run_bind_ok hrun
      have hids' : w'.links.ids.Nodup := LinkSet.ids_congr hentries ▸ hids
      have hlinked' : ∀ p ∈ keys, w'.links.linksTo p ≠ [] := fun p hp =>
        LinkSet.linksTo_congr hentries p ▸ hlinked p (List.mem_cons_of_mem _ hp)
      obtain ⟨hlookup, hlinks, es, hes⟩ := forEach_sendReq_frame hids' hlinked' hkeys hk
      rw [hrest, askedIn_cons_of_ok hn hopen hentries hlookup hlinks hes]
      have hlen : n ≤ w'.events.length := by
        rw [hopen.events, List.length_append]
        omega
      rw [ih hids' hlinked' hkeys hlen ?fresh]
      case fresh =>
        intro p hp i hi b hmem
        rw [LinkSet.linksTo_congr hentries] at hi
        rw [hopen.drop_events hn] at hmem
        rcases List.mem_append.mp hmem with hmem | hmem
        · exact hfresh p (List.mem_cons_of_mem _ hp) i hi b hmem
        · obtain ⟨d, hd, heq⟩ := List.mem_map.mp hmem
          cases heq
          exact hk (LinkSet.peer_unique hids hi hd ▸ hp)
      rw [LinkSet.turns_congr hentries, htick, hopen.env, LinkSet.turns,
        List.dropWhile_append_of_pos htaken, List.takeWhile_append_of_pos htaken]
      refine forall_congr' fun y => forall_congr' fun hy => ?_
      rw [hopen.mem_peers, List.map_append, List.mem_append]
      refine forall_congr' fun _ => ⟨.inr, fun h => h.resolve_left fun hmem => ?_⟩
      obtain ⟨z, hz, hzp⟩ := List.mem_map.mp hmem
      have hy' := (LinkSet.mem_turns ((List.dropWhile_sublist _).mem (List.mem_of_mem_tail hy))).1
      rw [← hzp, LinkSet.peer_of_mem_turnsTo hz] at hy'
      exact hk hy'
    · have hstop : forEach (k :: keys) sendReq w = (.error (.err .io), w') := run_bind_error hrun
      rw [hstop, askedIn_of_stop hids hn hfresh hk hsplit hopen hentries, LinkSet.turns, hturns,
        List.append_assoc, List.cons_append, List.dropWhile_append_of_pos htaken,
        List.takeWhile_append_of_pos htaken, List.dropWhile_cons_of_neg (by simp [hrefused]),
        List.takeWhile_cons_of_neg (by simp [hrefused]), List.append_nil, List.tail_cons]
      exact (starved_iff_of_stop hk hturns hbefore hafter).symm

/-- **A round of requests asks every peer that keeps a link exactly if the first refusal comes
when every registered peer still to be written to has been asked already.** -/
theorem asked_iff {w : World} (hids : w.links.ids.Nodup) :
    w.Asked (sendAllReqs w).2 ↔ w.NoneStarved := by
  let w₁ : World := { w with router.tree.responses := ∅ }
  have hrun : sendAllReqs w = forEach (sortKeys w.links.peers) sendReq w₁ := rfl
  have hpeers : ∀ {p}, p ∈ sortKeys w.links.peers ↔ w.links.linksTo p ≠ [] := by
    intro p
    rw [mem_sortKeys, LinkSet.mem_peers, LinkSet.linksTo_ne_nil, LinkSet.hasPeer_iff]
  have hkeys := nodup_sortKeys w.links.nodup_peers
  have hlinked : ∀ k ∈ sortKeys w.links.peers, w₁.links.linksTo k ≠ [] := fun k hk => hpeers.mp hk
  have hasked : w.Asked (sendAllReqs w).2 ↔
      AskedIn (sortKeys w.links.peers) w.events.length (sendAllReqs w).2 := by
    refine ⟨fun h p _ => h p, fun h p st hpeer => ?_⟩
    by_cases hp : p ∈ sortKeys w.links.peers
    · exact h p hp st hpeer
    · -- A peer without a link has none afterwards.
      rw [hrun] at hpeer ⊢
      obtain ⟨-, hlinks, -⟩ := forEach_sendReq_frame (w := w₁) hids hlinked hkeys hp
      obtain ⟨i, hi⟩ := List.exists_mem_of_ne_nil _ (LinkSet.linksTo_ne_nil.mpr hpeer)
      exact absurd (hpeers.mpr (List.ne_nil_of_mem (hlinks hi))) hp
  rw [hasked, hrun, askedIn_forEach (w := w₁) hids hlinked hkeys (Nat.le_refl _) ?fresh]
  case fresh =>
    intro p _ i _ b hmem
    simp [w₁] at hmem
  rfl

end

/-! ## A link that fails -/

section

attribute [local instance] Sample.lenient

/-- A router with two links to one peer and one link to another. -/
def shared (n : Nat) : World :=
  (World.init (smallKey 9) (.refusing n)).run
    [.connect (smallKey 3) 0 true, .connect (smallKey 3) 0 true,
      .connect (smallKey 4) 0 true]

/-- The first link refuses its request. Its peer has another link and a new open request,
which nothing was written of, and the other peer is not asked either. -/
theorem shared_facts :
    (fix (shared 16)).2.links.entries = [⟨1, smallKey 3⟩, ⟨2, smallKey 4⟩] ∧
      ((fix (shared 16)).2.router.tree.peers.lookup (smallKey 3)).map PeerState.req =
        some ⟨2, 15⟩ ∧
      ((fix (shared 16)).2.events.drop (shared 16).events.length).length = 0 ∧
      (fix (shared 16)).2.events.all (fun e => match e with
        | .wrote _ .sigReq b => b ≠ SigReq.encode ⟨2, 15⟩
        | _ => true) = true := by decide +kernel

theorem not_asked_shared : ¬ (shared 16).Asked (fix (shared 16)).2 := by
  obtain ⟨hentries, hreq, hnone, -⟩ := shared_facts
  obtain ⟨st, hst, -⟩ := Option.map_eq_some_iff.mp hreq
  intro hasked
  obtain ⟨id, -, hmem⟩ := hasked (smallKey 3) st
    (LinkSet.hasPeer_iff.mpr ⟨⟨1, smallKey 3⟩, by simp [hentries], rfl⟩) hst
  rw [List.length_eq_zero_iff.mp hnone] at hmem
  cases hmem

/-- The last write of the round may be refused. -/
theorem asked_shared :
    (shared 19).links.ids.Nodup ∧ (shared 19).Asked (sendAllReqs (shared 19)).2 := by
  have hids : (shared 19).links.ids.Nodup := by decide +kernel
  refine ⟨hids, (asked_iff hids).mpr ?_⟩
  unfold World.NoneStarved
  decide +kernel

end

end Roots

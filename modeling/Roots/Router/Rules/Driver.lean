import Roots.Router.Rules.Net

/-!
# Roots.Router.Rules.Driver

The rules for the driver, and from them **what holds in every reachable state**: the
invariant of the steps holds after every list of actions (`Inv.run`), and an action
aborts only where it encrypts to a key that is no point (`Action.body_obeys`).
-/

namespace Roots

open Prog RouterM Wire

variable [Crypto] {S : Scope} {strict : Prop}

/-! ## Registering a link -/

theorem writeConn_allows {ftype : FrameType} (hrec : Records (rules S strict) ftype) (id : LinkId)
    (payload : Bytes) : (rules S strict).Allows (writeConn id ftype payload) :=
  .bind (writeFrame_allows hrec _ _) fun _ => .ite (.pure _) (fail_allows rfl)

theorem allocPort_allows (hnumbers : S.numbers) (peerKey : Key) :
    (rules S strict).Allows (allocPort peerKey) := by
  refine .gets_bind fun r => ?_
  split
  · exact .pure _
  · exact .bind (.modify fun _ _ => .ports hnumbers _) fun _ => .pure _

theorem openReq_allows (peerKey : Key) : (rules S strict).Allows (openReq peerKey) := by
  refine .gets_bind fun r => ?_
  split
  · exact .pure _
  · exact newReq_allows

omit [Crypto] in
/-- A set that is started is empty. -/
theorem mem_sent_orInsert {sent : Assoc Key (List Key)} {peer p k : Key}
    (h : ∃ l, (sent.orInsert peer []).lookup p = some l ∧ k ∈ l) :
    ∃ l, sent.lookup p = some l ∧ k ∈ l := by
  obtain ⟨l, hlookup, hk⟩ := h
  rw [Assoc.lookup_orInsert] at hlookup
  split at hlookup
  · rename_i heq
    subst heq
    cases hl : sent.lookup p with
    | none =>
      simp only [hl, Option.getD_none, Option.some.injEq] at hlookup
      subst hlookup
      cases hk
    | some l₀ =>
      simp only [hl, Option.getD_some, Option.some.injEq] at hlookup
      exact ⟨l₀, rfl, hlookup ▸ hk⟩
  · exact ⟨l, hlookup, hk⟩

/-- The set of links stays as it is. -/
structure SameLinks (w w' : World) : Prop where
  links : w'.links = w.links
  nextLink : w'.nextLink = w.nextLink

theorem allocPort_links (peerKey : Key) (w : World) : SameLinks w (allocPort peerKey w).2 := by
  rw [allocPort, router, Prog.gets_bind]
  cases w.router.tree.peers.lookup peerKey <;> exact ⟨rfl, rfl⟩

theorem openReq_links (peerKey : Key) (w : World) : SameLinks w (openReq peerKey w).2 := by
  rw [openReq, router, Prog.gets_bind]
  cases w.router.tree.peers.lookup peerKey <;> exact ⟨rfl, rfl⟩

section Entering

variable (hrewires : S.rewires) (hmarks : S.marks) (hfilters : S.filters) (hnumbers : S.numbers)

include hrewires hmarks hfilters hnumbers

theorem enterLink_obeys {w : World} {id : LinkId} (hnew : id ∉ w.links.ids) (peerKey : Key)
    (prio : UInt8) (port order : UInt64) (req : SigReq) :
    Obeys (rules S strict) (enterLink id peerKey prio port order req) w := by
  refine .bind (.modify_walk fun _ => ?_) fun _ w' _ => bloomAddPeer_allows hfilters _ w'
  have hpeers : ∀ k ∈ w.router.tree.peers, k ∈ w.router.tree.peers.insert peerKey ⟨port, req⟩ :=
    fun k hk => (AList.mem_insert _).mpr (.inr hk)
  refine .tail (.tail (.single (.peers _ hpeers (.inl hnumbers)))
    (.enter hrewires id ⟨peerKey, false, unknownLatency, some 0, none, prio, order⟩ hnew))
    (.sent hmarks _ (fun p l k hlookup hk => .inl (mem_sent_orInsert ⟨l, hlookup, hk⟩)) fun p hp => ?_)
  obtain ⟨l, hl⟩ := Assoc.mem_iff_lookup.mp hp
  rw [Assoc.lookup_orInsert] at hl
  split at hl
  · rename_i heq
    exact .inr ((AList.mem_insert _).mpr (.inl heq))
  · exact .inl (Assoc.mem_iff_lookup.mpr ⟨l, hl⟩)

omit hrewires hmarks hfilters hnumbers in
theorem replay_allows (id : LinkId) (peerKey : Key) :
    (rules S strict).Allows (replay id peerKey) := by
  refine .gets_bind fun r => .bind (draw_allows _) fun keys => .forEach fun k _ => ?_
  split
  · exact .pure _
  · exact writeConn_allows (Writes.wrote (by decide) (by decide)) _ _

omit hrewires hmarks hnumbers in
theorem sendFilter_allows (id : LinkId) (peerKey : Key) :
    (rules S strict).Allows (sendFilter id peerKey) := by
  refine .gets_bind fun r => ?_
  split
  · exact writeConn_allows (records_filters hfilters _) _ _
  · rw [BloomFilter.encode_eq]
    exact .bind (lift_allows _) fun _ => writeConn_allows (records_filters hfilters _) _ _

omit hrewires hmarks hnumbers in
theorem greet_allows (id : LinkId) (peerKey : Key) (req : SigReq) (known : Bool) :
    (rules S strict).Allows (greet id peerKey req known) :=
  .bind (sendFilter_allows hfilters _ _) fun _ =>
    .bind (writeConn_allows (Writes.wrote (by decide) (by decide)) _ _) fun _ =>
      .ite (replay_allows _ _) (.pure _)

theorem register_obeys {w : World} {id : LinkId} (hnew : id ∉ w.links.ids) (peerKey : Key)
    (prio : UInt8) : Obeys (rules S strict) (register id peerKey prio) w := by
  refine .gets_bind (.bind (allocPort_allows hnumbers _ w) fun port w₁ h₁ => ?_)
  have hlinks₁ : w₁.links = w.links := by
    have h := (allocPort_links peerKey w).links
    rwa [h₁] at h
  refine .modify_bind (fun _ => .order _) (.bind (openReq_allows _ _) fun req w₂ h₂ => ?_)
  have hlinks₂ : w₂.links = w₁.links := by
    have h := (openReq_links peerKey
      { w₁ with router.tree.peerOrder := w₁.router.tree.peerOrder + 1 }).links
    rwa [h₂] at h
  refine .bind (enterLink_obeys hrewires hmarks hfilters hnumbers ?_ _ _ _ _ _) fun _ w₃ _ =>
    greet_allows hfilters _ _ _ _ w₃
  rwa [hlinks₂, hlinks₁]

end Entering

/-- The same context with the set of links as it is. -/
def Scope.wired (S : Scope) : Scope := { S with rewires := False }

/-- What the steps that leave the set of links alone do to it: links are retired when a socket
refuses a frame, ids are minted, and the tree's books have the same links of the same peers. -/
structure Wired (w w' : World) : Prop where
  ids : w'.links.ids ⊆ w.links.ids
  kept : (∀ n, w.env.writes n = true) → w'.links.ids = w.links.ids
  env : w'.env = w.env
  nextLink : w.nextLink ≤ w'.nextLink
  links : ∀ id, w'.router.tree.peerAt id = w.router.tree.peerAt id
  peers : ∀ k ∈ w.router.tree.peers, k ∈ w'.router.tree.peers

theorem Wired.refl (w : World) : Wired w w :=
  ⟨List.Subset.refl _, fun _ => rfl, rfl, le_refl _, fun _ => rfl, fun _ h => h⟩

theorem Step.wired {w w' : World} (h : Step S.wired w w') : Wired w w' := by
  cases h with
  | retire id hrefused =>
    obtain ⟨n, hn⟩ := hrefused
    exact { Wired.refl w with
      ids := w.links.ids_remove_subset id
      kept := fun h => absurd (h n) (Bool.eq_false_iff.mp hn) }
  | linkStates m hm => exact { Wired.refl w with links := hm }
  | peers m hm => exact { Wired.refl w with peers := hm }
  | mint => exact { Wired.refl w with nextLink := Nat.le_succ _ }
  | expire _ t =>
    have haged := w.router.tree.expire_aged t
    exact { Wired.refl w with links := haged.peerAt, peers := haged.peers ▸ fun _ h => h }
  | enter hrewires | join hrewires | leave hrewires => exact hrewires.elim
  | _ => exact { Wired.refl w with }

theorem Wired.of_walk {w w' : World} (h : Relation.ReflTransGen (Step S.wired) w w') :
    Wired w w' := by
  induction h with
  | refl => exact .refl w
  | tail _ hstep ih =>
    have hlast := hstep.wired
    exact ⟨fun _ h => ih.ids (hlast.ids h),
      fun h => (hlast.kept (ih.env ▸ h)).trans (ih.kept h), hlast.env.trans ih.env,
      ih.nextLink.trans hlast.nextLink, fun id => (hlast.links id).trans (ih.links id),
      fun k hk => hlast.peers k (ih.peers k hk)⟩

theorem Inv.wired {w : World} (h : Inv S w) : Inv S.wired w := { h with }

theorem Inv.of_allows {α : Type} {m : RouterM α} {r : Except Exit α} {w w' : World} (hw : Inv S w)
    (hm : (rules S False).Allows m) (h : m w = (r, w')) : Inv S w' := (hm w).inv_of_eq hw h

theorem Wired.of_allows {α : Type} {m : RouterM α} {r : Except Exit α} {w w' : World}
    (hm : (rules S.wired False).Allows m) (hw : Inv S w) (h : m w = (r, w')) : Wired w w' :=
  .of_walk ((hm w).walk_of_eq hw.wired h)

/-- `register` begins with steps that every context allows. Then it enters the link and greets
the peer. -/
theorem register_enters (hnumbers : S.numbers) {w : World} (hw : Inv S w) (id : LinkId)
    (peerKey : Key) (prio : UInt8) :
    ∃ port order req v, Relation.ReflTransGen (Step S) w v ∧ SameLinks w v ∧
      register id peerKey prio w = (do
        enterLink id peerKey prio port order req
        greet id peerKey req (peerKey ∈ w.router.tree.peers) : RouterM Unit) v := by
  obtain ⟨port, w₁, h₁⟩ : ∃ port w₁, allocPort peerKey w = (.ok port, w₁) := by
    rw [allocPort, router, Prog.gets_bind]
    cases w.router.tree.peers.lookup peerKey <;> exact ⟨_, _, rfl⟩
  have hport : (rules S False).Allows (allocPort peerKey) :=
    allocPort_allows hnumbers peerKey
  have hwalk₁ := (hport w).walk_of_eq hw h₁
  have hw₁ : Inv S w₁ := hw.of_allows hport h₁
  obtain ⟨req, v, h₂⟩ : ∃ req v, openReq peerKey
      { w₁ with router.tree.peerOrder := w₁.router.tree.peerOrder + 1 } = (.ok req, v) := by
    rw [openReq, router, Prog.gets_bind]
    cases w₁.router.tree.peers.lookup peerKey <;> exact ⟨_, _, rfl⟩
  have hreq : (rules S False).Allows (openReq peerKey) := openReq_allows peerKey
  have hwalk₂ := (hreq _).walk_of_eq (hw₁.step (.order _)) h₂
  have hsame : SameLinks w v := by
    have hlinks₁ := allocPort_links peerKey w
    have hlinks₂ := openReq_links peerKey
      { w₁ with router.tree.peerOrder := w₁.router.tree.peerOrder + 1 }
    rw [h₁] at hlinks₁
    rw [h₂] at hlinks₂
    exact ⟨hlinks₂.links.trans hlinks₁.links, hlinks₂.nextLink.trans hlinks₁.nextLink⟩
  refine ⟨port, w.router.tree.peerOrder, req, v, (hwalk₁.tail (.order _)).trans hwalk₂, hsame, ?_⟩
  rw [register, router, Prog.gets_bind, run_bind_ok h₁]
  exact run_bind_ok h₂

/-- `register` only writes to the new connection. -/
theorem register_links (id : LinkId) (peerKey : Key) (prio : UInt8) (w : World) :
    SameLinks w (register id peerKey prio w).2 := by
  have hwrite : ∀ (ftype : FrameType) (payload : Bytes) {v : World}, SameLinks w v →
      SameLinks w (writeConn id ftype payload v).2 := by
    intro ftype payload v hv
    rw [writeConn_run]
    split <;> exact ⟨hv.links, hv.nextLink⟩
  have hreq : ∀ {v : World}, SameLinks w v → SameLinks w (openReq peerKey v).2 := by
    intro v hv
    have h := openReq_links peerKey v
    exact ⟨h.links.trans hv.links, h.nextLink.trans hv.nextLink⟩
  have hfilter : ∀ {v : World}, SameLinks w v → SameLinks w (sendFilter id peerKey v).2 := by
    intro v hv
    rw [sendFilter, router, Prog.gets_bind]
    cases v.router.bloom.send.lookup peerKey with
    | none => exact hwrite _ _ hv
    | some b =>
      dsimp only
      rw [BloomFilter.encode_eq]
      exact hwrite _ _ hv
  have hreplay : ∀ {v : World}, SameLinks w v → SameLinks w (replay id peerKey v).2 := by
    intro v hv
    rw [replay, router, Prog.gets_bind]
    have htick : SameLinks w { v with tick := v.tick + 1 } := ⟨hv.links, hv.nextLink⟩
    refine snd_bind htick fun keys v' _ hv' => snd_forEach hv' fun k _ u hu => ?_
    cases v.router.tree.infos.lookup k with
    | none => exact hu
    | some info => exact hwrite _ _ hu
  rw [register, router, Prog.gets_bind]
  refine snd_bind (allocPort_links peerKey w) fun port v₁ _ h₁ => ?_
  have horder : SameLinks w { v₁ with router.tree.peerOrder := v₁.router.tree.peerOrder + 1 } :=
    ⟨h₁.links, h₁.nextLink⟩
  refine snd_bind horder fun _ v₂ _ h₂ => snd_bind (hreq h₂) fun req v₃ _ h₃ => ?_
  have henter : SameLinks w (enterLink id peerKey prio port w.router.tree.peerOrder req v₃).2 :=
    ⟨h₃.links, h₃.nextLink⟩
  refine snd_bind henter fun _ v₄ _ h₄ => snd_bind (hfilter h₄) fun _ v₅ _ h₅ => ?_
  refine snd_bind (hwrite _ _ h₅) fun _ v₆ _ h₆ => ?_
  split
  · exact hreplay h₆
  · exact h₆

/-- A registered link and its peer are in the tree's books. -/
theorem register_mem (hrewires : S.rewires) (hmarks : S.marks) (hfilters : S.filters)
    (hnumbers : S.numbers) {id : LinkId} {peerKey : Key} {prio : UInt8} {w w' : World} (hw : Inv S w)
    (hnew : id ∉ w.links.ids) (h : register id peerKey prio w = (.ok (), w')) :
    w'.router.tree.peerAt id = some peerKey ∧ peerKey ∈ w'.router.tree.peers := by
  obtain ⟨port, order, req, v, hwalk, hsame, hrun⟩ := register_enters hnumbers hw id peerKey prio
  have hv : Inv S v := Rules.inv_of_walk (R := rules S False) hwalk hw
  obtain ⟨_, w₁, h₁, h⟩ := run_bind_eq_ok (hrun.symm.trans h)
  rw [← hsame.links] at hnew
  have henter : Obeys (rules S False) (enterLink id peerKey prio port order req) v :=
    enterLink_obeys hrewires hmarks hfilters hnumbers hnew _ _ _ _ _
  have hw₁ : Inv S w₁ := henter.inv_of_eq hv h₁
  have hmem : w₁.router.tree.peerAt id = some peerKey ∧ peerKey ∈ w₁.router.tree.peers := by
    cases h₁
    exact ⟨congrArg _ (AList.lookup_insert _), (AList.mem_insert _).mpr (.inl rfl)⟩
  have hgreet := Wired.of_allows (greet_allows (S := S.wired) hfilters _ _ _ _) hw₁ h
  exact ⟨(hgreet.links id).trans hmem.1, hgreet.peers peerKey hmem.2⟩

/-- The next id is not in the set. -/
theorem Inv.nextLink_new {w : World} (hw : Inv S w) : w.nextLink ∉ w.links.ids := fun hmem =>
  lt_irrefl _ (hw.minted _ hmem)

theorem connect_allows (hrewires : S.rewires) (hmarks : S.marks) (hfilters : S.filters)
    (hnumbers : S.numbers) (peerKey : Key) (prio : UInt8) (kept : Bool) :
    (rules S strict).Allows (connect peerKey prio kept) := by
  refine fun w => .of_inv fun hw => ?_
  have hmint : Obeys (rules S strict) mintLink w :=
    .gets_bind (.modify_bind (fun _ => .mint) (.pure _))
  refine .bind hmint fun id w₁ h₁ => ?_
  cases h₁
  have hnew : w.nextLink ∉ { w with nextLink := w.nextLink + 1 }.links.ids := hw.nextLink_new
  have hregister : Obeys (rules S strict) (register w.nextLink peerKey prio)
      { w with nextLink := w.nextLink + 1 } :=
    register_obeys hrewires hmarks hfilters hnumbers hnew _ _
  refine .bind hregister fun _ w' hreg => .ite (fun _ => ?_) fun _ => .pure _
  -- Registering leaves the set alone, so the new id is still new.
  have hsame := register_links w.nextLink peerKey prio { w with nextLink := w.nextLink + 1 }
  rw [hreg] at hsame
  obtain ⟨hmem, hpeer⟩ := register_mem hrewires hmarks hfilters hnumbers (hw.step .mint) hnew hreg
  refine draw_bind_obeys (.modify fun _ => .join hrewires _ _ hmem hpeer ?_ ?_)
  · show w.nextLink ∉ w'.links.ids
    rwa [hsame.links]
  · show w.nextLink < w'.nextLink
    rw [hsame.nextLink]
    exact Nat.lt_succ_self _

theorem disconnect_allows (hrewires : S.rewires) (id : LinkId) :
    (rules S strict).Allows (disconnect id) := .modify fun _ _ => .leave hrewires id

/-! ## Sending to an address -/

theorem keyForAddr_allows (addr : Address) : (rules S strict).Allows (RouterM.keyForAddr addr) :=
  .gets_bind fun _ => .bind (draw_allows _) fun _ => .bind (draw_allows _) fun _ => .pure _

/-- A key found for an address owns it, and something is known about it. -/
theorem keyForAddr_eq_some {addr : Address} {k : Key} {w w' : World}
    (h : RouterM.keyForAddr addr w = (.ok (some k), w')) :
    ownsAddr k addr = true ∧ (k ∈ w.router.path.entries ∨ k ∈ w.router.sess.sessions) := by
  have hfind := congrArg Prod.fst h
  simp only [RouterM.keyForAddr, router, iterate, draw, run_bind, run_gets, run_pure] at hfind
  have hfound := Except.ok.inj hfind
  have howns := List.find?_some hfound
  refine ⟨howns, ?_⟩
  rcases List.mem_append.mp (List.mem_of_find?_eq_some hfound) with hmem | hmem
  · exact .inl (AList.mem_keys.mp (((w.env.order _).perm _).mem_iff.mp hmem))
  · exact .inr (AList.mem_keys.mp (((w.env.order _).perm _).mem_iff.mp hmem))

section Law

variable (law : strict → PointCrypto)

include law

/-- A payload goes to an owner of its address at once, or waits for one. -/
theorem sendOrResolve_obeys {w : World} (via : LinkId) {a : Address} {b : Bytes}
    (hpass : ∀ k, S.flush k → xkey k = xkey (lookupKeyForAddr a) → S.passes k ⟨b, .addressed a⟩) :
    Obeys (rules S strict) (sendOrResolve via a b) w := by
  refine .of_inv fun hw => .gets_bind (.ite (fun _ => fail_allows rfl w) fun _ => ?_)
  refine .bind (keyForAddr_allows a w) fun key w' hkey => ?_
  split
  · rename_i k
    obtain ⟨howns, hknown⟩ := keyForAddr_eq_some hkey
    have hvalid : Crypto.validKey k = true := hknown.elim (hw.paths k) (hw.valid k)
    exact sessionSend_obeys (sendsFrom_of_allows (netSend_allows law) _ _)
      (fun h => law h k hvalid) (S.passes_of_owns b howns) (S.seals_kind ⟨b, .addressed a⟩)
  · exact holdForLookup_allows (sends_netSend law) law hpass w'

/-! ## Maintenance -/

omit law in
theorem expireEphemeral_allows (hdrops : S.drops) (hforgets : S.forgets) :
    (rules S strict).Allows expireEphemeral := by
  refine .bind (draw_allows _) fun t => .bind (fun w => .modify_walk fun _ => ?_) fun _ =>
    .gets_bind fun r => .bind (lose_allows _) fun _ w => .modify_walk fun _ => ?_
  · refine .tail (.single (.entries (w.router.path.entries.retain fun _ e => t < e.deadline)
      (fun k e h => ?_) (.inl hforgets))) (.rumors _ (fun x r p h hp => ?_) (.inl hforgets))
    · rw [Assoc.lookup_retain] at h
      exact ⟨e, (Option.filter_eq_some_iff.mp h).1, rfl, rfl⟩
    · rw [Assoc.lookup_retain] at h
      exact ⟨r, (Option.filter_eq_some_iff.mp h).1, hp, rfl⟩
  · refine .tail (.single (.bufs hdrops (w.router.sess.bufs.retain fun _ b => t < b.deadline)
      fun k held h => ?_)) (.sessions hdrops _ fun k h => ?_)
    · rw [Assoc.lookup_retain] at h
      exact (Option.filter_eq_some_iff.mp h).1
    · obtain ⟨v, hv⟩ := Assoc.mem_iff_lookup.mp h
      rw [Assoc.lookup_retain] at hv
      exact Assoc.mem_iff_lookup.mpr ⟨v, (Option.filter_eq_some_iff.mp hv).1⟩

theorem sweep_allows (hdrops : S.drops) (hforgets : S.forgets) :
    (rules S strict).Allows sweep := by
  refine .bind (expireEphemeral_allows hdrops hforgets) fun _ => .gets_bind fun _ =>
    .bind (draw_allows _) fun _ => ?_
  exact .forEach fun k _ => rumorLookup_allows (sends_netSend law) law k

theorem tidy_allows (hmarks : S.marks) (hfilters : S.filters) (hdrops : S.drops)
    (hforgets : S.forgets) : (rules S strict).Allows tidy :=
  .bind (sendAnnounces_allows hmarks) fun _ => .bind (bloomMaintenance_allows hfilters) fun _ =>
    sweep_allows law hdrops hforgets

theorem maintain_allows (hgrows : S.grows) (hadopt : S.adopts) (hages : S.ages)
    (hmarks : S.marks) (hfilters : S.filters) (hdrops : S.drops) (hstamps : S.stamps)
    (hforgets : S.forgets) : (rules S strict).Allows maintain :=
  .bind (expireTree_allows hages) fun _ => .bind (fix_allows hgrows hadopt hstamps) fun _ =>
    tidy_allows law hmarks hfilters hdrops hforgets

/-! ## Inbound frames -/

omit law in
/-- A frame that does not decode is passed over, and reading it changes nothing. -/
theorem ifOk_bind_obeys {α β : Type} {r : Except Exit α} {f : Option α → RouterM β} {w : World}
    (hr : Refuses r) (hsome : ∀ a, r = .ok a → Obeys (rules S strict) (f (some a)) w)
    (hnone : Obeys (rules S strict) (f none) w) : Obeys (rules S strict) (ifOk r >>= f) w := by
  cases r with
  | ok a => exact hsome a rfl
  | error e =>
    cases hr e rfl
    exact hnone

/-- What a context must allow for a frame of a type to be handled. -/
def Scope.Takes (S : Scope) : FrameType → Prop
  | .sigRes => S.grows
  | .announce => S.grows ∧ S.adopts ∧ S.marks
  | .traffic => S.drops ∧ S.delivers
  | _ => True

/-- What a frame must not do in a context: bring a path that may not be learned, release a held
payload to a source it may not go to, or ask for an answer that cannot be encrypted. -/
structure World.Admits (S : Scope) (strict : Prop) (w : World) (ftype : FrameType)
    (payload : Bytes) : Prop where
  learns : ftype = .pathNotify → ∀ n, PathNotify.decodeExact payload = .ok n → w.Accepts n →
    S.learns n
  notify : ftype = .pathNotify → ∀ n, PathNotify.decodeExact payload = .ok n → w.Accepts n →
    ∀ p, w.router.path.heldFor n.source = some (p, true) → S.passes n.source p
  traffic : strict → ftype = .traffic → ∀ tr, Traffic.decode payload = .ok tr →
    ¬ w.Unanswerable tr

theorem handleFrame_obeys {w : World} (conn : LinkId) {connPeer : Key}
    (hpeer : connPeer ∈ w.router.tree.peers) {payload : Bytes} {ftype : FrameType}
    (htakes : S.Takes ftype) (h : w.Admits S strict ftype payload) :
    Obeys (rules S strict) (handleFrame conn connPeer payload ftype) w := by
  cases ftype with
  | keepAlive | dummy => exact .pure _
  | sigReq =>
    refine ifOk_bind_obeys ?_ (fun req _ => handleRequest_allows _ _ _ w) (.pure _)
    exact .bind (SigReq.decode_refuses _) fun _ => exact_refuses _
  | sigRes =>
    refine ifOk_bind_obeys ?_ (fun res _ => .gets_bind ?_) (.pure _)
    · exact .bind (SigRes.decode_refuses _) fun _ => exact_refuses _
    · exact .ite (fun _ => handleResponse_allows htakes _ _ _ w) fun _ => .pure _
  | announce =>
    refine ifOk_bind_obeys (Announce.decodeExact_refuses _) (fun ann _ => ?_) (.pure _)
    refine .ite (fun hcheck => ?_) fun _ => .pure _
    obtain ⟨hgrows, hadopt, hmarks⟩ := htakes
    refine .bind (handleAnnounce_obeys hgrows hadopt hmarks hpeer hcheck) fun reply w' _ => ?_
    split
    · exact write_allows (Writes.wrote (by decide) (by decide)) _ _ _
    · exact .pure _
  | bloomFilter => exact bloomHandle_allows _ _ w
  | pathLookup =>
    refine ifOk_bind_obeys (PathLookup.decodeExact_refuses _) (fun lookup _ => ?_) (.pure _)
    exact handleLookup_allows (sends_netSend law) law _ _ w
  | pathNotify =>
    refine ifOk_bind_obeys (PathNotify.decodeExact_refuses _) (fun n hn => ?_) (.pure _)
    refine .ite (fun _ => ?_) fun _ => .pure _
    exact handleNotify_obeys (sends_netSend law) law (h.learns rfl n hn) (h.notify rfl n hn)
  | pathBroken =>
    refine ifOk_bind_obeys (PathBroken.decodeExact_refuses _) (fun broken _ => ?_) (.pure _)
    exact handleBroken_allows (sends_netSend law) law _ w
  | traffic =>
    refine ifOk_bind_obeys (Traffic.decode_refuses _) (fun tr htr => ?_) (.pure _)
    exact handleInboundTraffic_obeys law htakes.1 htakes.2 fun hs => h.traffic hs rfl tr htr

theorem dispatchFrame_obeys {w : World} (conn : LinkId) {payload : Bytes} {ftype : FrameType}
    (htakes : S.Takes ftype) (h : w.Admits S strict ftype payload) :
    Obeys (rules S strict) (dispatchFrame conn ftype payload) w := by
  refine .of_inv fun hw => .gets_bind ?_
  split
  · exact .pure _
  · rename_i connPeer hconn
    refine .bind (handleFrame_obeys law _ (hw.peer_mem hconn) htakes h) fun _ w' _ => ?_
    exact .ite (fun _ => .pure _) fun _ => keepaliveIfIdle_allows _ _

theorem sendAll_allows {items : List (Key × Payload)}
    (hpoint : strict → ∀ x ∈ items, (edToCurvePub x.1).isSome)
    (hitems : ∀ x ∈ items, S.passes x.1 x.2 ∧ S.seals packetTypeTraffic x.2) :
    (rules S strict).Allows (sendAll items) := by
  induction items with
  | nil => exact .pure _
  | cons x rest ih =>
    obtain ⟨hpass, hseal⟩ := hitems x (List.mem_cons_self ..)
    refine .bind (fun w => orLose_obeys ?_) fun _ => ?_
    · exact sessionSend_obeys (sendsFrom_of_allows (netSend_allows law) _ _)
        (fun h => hpoint h x (List.mem_cons_self ..)) hpass hseal
    · exact ih (fun h y hy => hpoint h y (List.mem_cons_of_mem _ hy)) fun y hy =>
        hitems y (List.mem_cons_of_mem _ hy)

theorem sendOutbox_obeys (hdrops : S.drops) {w : World}
    (hpoint : strict → ∀ x ∈ w.outbox, (edToCurvePub x.1).isSome)
    (hseal : ∀ x ∈ w.outbox, S.seals packetTypeTraffic x.2) :
    Obeys (rules S strict) sendOutbox w := by
  refine .of_inv fun hw => .gets_bind (.modify_bind (fun _ => .takeOutbox hdrops) ?_)
  exact sendAll_allows law hpoint (fun x hx => ⟨hw.outbox x hx, hseal x hx⟩) _

end Law

/-! ## Actions -/

/-- What an action must not do in a context. -/
def World.Permits (S : Scope) (strict : Prop) (w : World) : Action → Prop
  | .frame _ ftype payload => w.Admits S strict ftype payload
  | .sendOrResolve _ a b =>
      ∀ k, S.flush k → xkey k = xkey (lookupKeyForAddr a) → S.passes k ⟨b, .addressed a⟩
  | .sendOutbox =>
      (strict → ∀ x ∈ w.outbox, (edToCurvePub x.1).isSome) ∧
        ∀ x ∈ w.outbox, S.seals packetTypeTraffic x.2
  | .request dest _ => strict → (edToCurvePub dest).isSome
  | .setNodeinfo json => strict → json.length ≤ 16384
  | _ => True

/-- A context in which the owner and the peers may do everything. -/
structure Scope.Open (S : Scope) : Prop where
  rewires : S.rewires
  grows : S.grows
  adopts : S.adopts
  ages : S.ages
  marks : S.marks
  filters : S.filters
  drops : S.drops
  drains : S.drains
  numbers : S.numbers
  stamps : S.stamps
  delivers : S.delivers
  forgets : S.forgets

omit [Crypto] in
theorem Scope.Open.takes (hS : S.Open) (ftype : FrameType) : S.Takes ftype := by
  cases ftype with
  | sigRes => exact hS.grows
  | announce => exact ⟨hS.grows, hS.adopts, hS.marks⟩
  | traffic => exact ⟨hS.drops, hS.delivers⟩
  | _ => trivial

/-- What a context must allow for an action. -/
def Scope.Fits (S : Scope) : Action → Prop
  | .connect .. => S.rewires ∧ S.marks ∧ S.filters ∧ S.numbers
  | .disconnect _ => S.rewires
  | .frame _ ftype _ => S.Takes ftype
  | .maintain =>
      S.grows ∧ S.adopts ∧ S.ages ∧ S.marks ∧ S.filters ∧ S.drops ∧ S.stamps ∧ S.forgets
  | .sendOutbox => S.drops
  | .drainInbox => S.drains
  | _ => True

omit [Crypto] in
theorem Scope.Open.fits (hS : S.Open) (a : Action) : S.Fits a := by
  cases a with
  | connect => exact ⟨hS.rewires, hS.marks, hS.filters, hS.numbers⟩
  | disconnect => exact hS.rewires
  | frame _ ftype _ => exact hS.takes ftype
  | maintain =>
    exact ⟨hS.grows, hS.adopts, hS.ages, hS.marks, hS.filters, hS.drops, hS.stamps, hS.forgets⟩
  | sendOutbox => exact hS.drops
  | drainInbox => exact hS.drains
  | _ => trivial

/-- **Every action is a sequence of steps and does not abort**, where it is permitted. -/
theorem Action.body_obeys (law : strict → PointCrypto) {w : World} (a : Action)
    (hfits : S.Fits a) (h : w.Permits S strict a) : Obeys (rules S strict) a.body w := by
  cases a with
  | connect peer prio kept =>
    obtain ⟨hrewires, hmarks, hfilters, hnumbers⟩ := hfits
    exact connect_allows hrewires hmarks hfilters hnumbers _ _ _ w
  | disconnect id => exact disconnect_allows hfits _ w
  | frame conn ftype payload => exact dispatchFrame_obeys law conn hfits h
  | quiet conn => exact keepaliveIfIdle_allows _ w
  | maintain =>
    obtain ⟨hgrows, hadopt, hages, hmarks, hfilters, hdrops, hstamps, hforgets⟩ := hfits
    exact maintain_allows law hgrows hadopt hages hmarks hfilters hdrops hstamps hforgets w
  | enqueue dest payload id => exact .modify fun _ => .enqueue dest _ rfl
  | requeue => exact .modify fun _ => .requeue
  | sendOutbox => exact sendOutbox_obeys law hfits h.1 h.2
  | sendOrResolve via dest payload => exact sendOrResolve_obeys law via h
  | lookup dest => exact rumorLookup_allows (sends_netSend law) law dest w
  | request dest payload =>
    exact protoSend_obeys (sendsFrom_of_allows (netSend_allows law) _ _) h payload
  | setNodeinfo json =>
    refine .ite (fun hlong => .exit fun _ hbad => ?_) fun _ => .modify fun _ => .nodeinfo _
    exact Nat.not_lt.mpr (h hbad.1) hlong
  | drainInbox => exact .modify fun _ => .drain hfits
  | takeProto idx => exact .modify fun _ => .protoInbox _

theorem Action.act_walk (hS : S.Open) {w : World} (hw : Inv S w) (a : Action)
    (h : w.Permits S False a) : Relation.ReflTransGen (Step S) w (w.act a) :=
  (a.body_obeys False.elim (hS.fits a) h).walk hw

/-! ## Runs -/

theorem Inv.init {seed : Key} (hown : S.flush (Crypto.verifyingKey seed)) (env : Env) :
    Inv S (World.init seed env) where
  own := hown
  served := by simp [World.init, LinkSet.empty]
  peered := by simp [World.init, LinkSet.empty]
  known := by simp [World.init, Router.init, TreeState.init]
  nodup := List.nodup_nil
  minted := by simp [World.init, LinkSet.empty, LinkSet.ids]
  valid := by simp [World.init, Router.init, SessionState.init]
  paths := by simp [World.init, Router.init, PathState.init]
  slots := by simp [World.init, Router.init, PathState.init, PathState.heldFor]
  held := by simp [World.init, Router.init, PathState.init]
  outbox := by simp [World.init]
  resend := by simp [World.init, Router.init, SessionState.init]
  bufs := by simp [World.init, Router.init, SessionState.init]
  events := by simp [World.init]

/-- **The invariant holds after every run** whose actions are permitted where they happen. -/
theorem Inv.run (hS : S.Open) {P : World → Action → Prop}
    (hP : ∀ {w a}, Inv S w → P w a → w.Permits S False a) {w : World} (hw : Inv S w)
    {actions : List Action} (h : w.Along P actions) : Inv S (w.run actions) := by
  induction actions generalizing w with
  | nil => exact hw
  | cons a actions ih =>
    have hwalk := a.act_walk hS hw (hP hw h.1)
    exact ih (Rules.inv_of_walk (R := rules S False) hwalk hw) h.2

/-- Nothing that was recorded is forgotten. -/
theorem Step.events_subset {w w' : World} (h : Step S w w') : w.events ⊆ w'.events := by
  cases h with
  | notes | stash | release | deliver => exact List.subset_append_left _ _
  | _ => exact List.Subset.refl _

theorem events_subset_of_walk {w w' : World} (h : Relation.ReflTransGen (Step S) w w') :
    w.events ⊆ w'.events := by
  induction h with
  | refl => exact List.Subset.refl _
  | tail _ hstep ih => exact List.Subset.trans ih hstep.events_subset

/-- The keys of a node never change. -/
theorem Step.pubkey_eq {w w' : World} (h : Step S w w') : w'.router.pubkey = w.router.pubkey := by
  cases h <;> rfl

/-- The context in which everything is permitted. -/
def Scope.free : Scope where
  flush _ := True
  passes _ _ := True
  seals _ _ := True
  rewires := True
  grows := True
  adopts := True
  ages := True
  marks := True
  filters := True
  drops := True
  drains := True
  passes_of_none _ := trivial
  passes_of_owns _ _ := trivial
  seals_kind _ := trivial

omit [Crypto] in
theorem Scope.free_open : Scope.free.Open :=
  ⟨trivial, trivial, trivial, trivial, trivial, trivial, trivial, trivial, trivial, trivial, trivial,
    trivial⟩

/-- A context in which payloads may go anywhere and every path may be learned permits every
action. -/
theorem World.permits_all (hpasses : ∀ k p, S.passes k p) (hseals : ∀ kind p, S.seals kind p)
    (hlearns : ∀ n, S.learns n) (w : World) (a : Action) : w.Permits S False a := by
  cases a with
  | frame conn ftype payload =>
    exact ⟨fun _ n _ _ => hlearns n, fun _ _ _ _ p _ => hpasses _ p, False.elim⟩
  | sendOrResolve => exact fun k _ _ => hpasses k _
  | sendOutbox => exact ⟨False.elim, fun x _ => hseals _ x.2⟩
  | request | setNodeinfo => exact False.elim
  | _ => trivial

theorem World.permits_free (w : World) (a : Action) : w.Permits .free False a :=
  w.permits_all (fun _ _ => trivial) (fun _ _ => trivial) (fun _ => trivial) a

theorem pubkey_eq_of_walk {w w' : World} (h : Relation.ReflTransGen (Step S) w w') :
    w'.router.pubkey = w.router.pubkey := by
  induction h with
  | refl => rfl
  | tail _ hstep ih => exact hstep.pubkey_eq.trans ih

theorem inv_act {w : World} (hw : Inv .free w) (a : Action) : Inv .free (w.act a) :=
  Rules.inv_of_walk (R := rules .free False) (a.act_walk Scope.free_open hw (w.permits_free a)) hw

theorem inv_handleFrame {w w' : World} (hw : Inv .free w) {conn : LinkId} {peer : Key}
    (hpeer : w.links.peerOf conn = some peer) {payload : Bytes} {ftype : FrameType}
    {r : Except Exit Unit} (h : handleFrame conn peer payload ftype w = (r, w')) : Inv .free w' :=
  (handleFrame_obeys False.elim conn (hw.peer_mem hpeer) (Scope.free_open.takes ftype)
    (w.permits_free (.frame conn ftype payload))).inv_of_eq hw h

theorem World.pubkey_act {w : World} (hw : Inv .free w) (a : Action) :
    (w.act a).router.pubkey = w.router.pubkey :=
  pubkey_eq_of_walk (a.act_walk Scope.free_open hw (w.permits_free a))

/-- A state a node can be in: something has happened to a fresh one. -/
def World.Reachable (w : World) : Prop :=
  ∃ (seed : Key) (env : Env) (actions : List Action), w = (World.init seed env).run actions

theorem World.Reachable.act {w : World} (h : w.Reachable) (a : Action) : (w.act a).Reachable := by
  obtain ⟨seed, env, actions, rfl⟩ := h
  exact ⟨seed, env, actions ++ [a], ((World.init seed env).run_append actions [a]).symm⟩

theorem World.inv_run (seed : Key) (env : Env) (actions : List Action) :
    Inv .free ((World.init seed env).run actions) :=
  (Inv.init trivial env).run Scope.free_open (P := fun _ _ => True)
    (fun _ _ => World.permits_free _ _) (World.along_true _ _)

theorem World.Reachable.inv {w : World} (h : w.Reachable) : Inv .free w := by
  obtain ⟨seed, env, actions, rfl⟩ := h
  exact World.inv_run seed env actions

theorem Step.env_eq {w w' : World} (h : Step S w w') : w'.env = w.env := by
  cases h <;> rfl

theorem env_eq_of_walk {w w' : World} (h : Relation.ReflTransGen (Step S) w w') :
    w'.env = w.env := by
  induction h with
  | refl => rfl
  | tail _ hstep ih => exact hstep.env_eq.trans ih

theorem World.env_act {w : World} (hw : Inv .free w) (a : Action) : (w.act a).env = w.env :=
  env_eq_of_walk (a.act_walk Scope.free_open hw (w.permits_free a))

theorem World.env_run (seed : Key) (env : Env) (actions : List Action) :
    ((World.init seed env).run actions).env = env := by
  induction actions using List.reverseRecOn with
  | nil => rfl
  | append_singleton actions a ih =>
    rw [World.run_append]
    exact (World.env_act (World.inv_run seed env actions) a).trans ih

theorem World.pubkey_run (seed : Key) (env : Env) (actions : List Action) :
    ((World.init seed env).run actions).router.pubkey = Crypto.verifyingKey seed := by
  induction actions using List.reverseRecOn with
  | nil => rfl
  | append_singleton actions a ih =>
    rw [World.run_append]
    exact (World.pubkey_act (World.inv_run seed env actions) a).trans ih

end Roots

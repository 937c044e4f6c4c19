import Roots.Router.Rules.Driver

/-!
# Roots.Router.Books

What the tree's books say of peers and links: the port of each key, and when the request on
each link was sent. **Only `register` gives out ports, and only `register` and `send_req` note
the time of a request**: every other method leaves both as they are, because none of the steps
it is made of touches them.
-/

namespace Roots

open Prog RouterM

/-- The port of a key. -/
def TreeState.portOf (t : TreeState) (k : Key) : Option UInt64 :=
  (t.peers.lookup k).map PeerState.port

/-- When the request on a link was sent, as its state has it. -/
def TreeState.stampAt (t : TreeState) (id : LinkId) : Option (Option Instant) :=
  (t.links.lookup id).map LinkState.sentAt

theorem TreeState.portOf_isSome {t : TreeState} {k : Key} : (t.portOf k).isSome ↔ k ∈ t.peers := by
  rw [portOf, Option.isSome_map, AList.lookup_isSome]

theorem TreeState.stampAt_isSome {t : TreeState} {id : LinkId} :
    (t.stampAt id).isSome ↔ id ∈ t.links := by
  rw [stampAt, Option.isSome_map, AList.lookup_isSome]

theorem TreeState.expire_nextPort (t : TreeState) (now : Instant) :
    (t.expire now).nextPort = t.nextPort := by
  have hforget : ∀ (keys : List Key) (t : TreeState), (keys.foldl forget t).nextPort = t.nextPort := by
    intro keys
    induction keys with
    | nil => exact fun _ => rfl
    | cons k keys ih => exact fun t => ih (t.forget k)
  rw [expire, refreshDue]
  split
  · split <;> exact hforget _ t
  · exact hforget _ t

variable [Crypto] {S : Scope}

/-! ## Ports -/

/-- The same context with the ports as they are. -/
def Scope.numbered (S : Scope) : Scope := { S with rewires := False, numbers := False }

/-- The ports are as they were. -/
structure SamePorts (w w' : World) : Prop where
  ports : ∀ k, w'.router.tree.portOf k = w.router.tree.portOf k
  nextPort : w'.router.tree.nextPort = w.router.tree.nextPort

theorem SamePorts.refl (w : World) : SamePorts w w := ⟨fun _ => rfl, rfl⟩

theorem SamePorts.trans {w w' w'' : World} (h : SamePorts w w') (h' : SamePorts w' w'') :
    SamePorts w w'' :=
  ⟨fun k => (h'.ports k).trans (h.ports k), h'.nextPort.trans h.nextPort⟩

theorem Step.samePorts {w w' : World} (h : Step S.numbered w w') : SamePorts w w' := by
  cases h with
  | peers m hm hnumbers => exact { SamePorts.refl w with ports := hnumbers.resolve_left id }
  | ports hnumbers => exact hnumbers.elim
  | expire _ t =>
    refine ⟨fun k => ?_, w.router.tree.expire_nextPort t⟩
    show (w.router.tree.expire t).portOf k = w.router.tree.portOf k
    rw [TreeState.portOf, TreeState.portOf, (w.router.tree.expire_aged t).peers]
  | _ => exact { SamePorts.refl w with }

theorem SamePorts.of_obeys {α : Type} {m : RouterM α} {w : World}
    (hm : Obeys (rules S.numbered False) m w) (hw : Inv S w) : SamePorts w (m w).2 := by
  have hwalk := hm.walk ({ hw with } : Inv S.numbered w)
  generalize (m w).2 = w' at hwalk
  induction hwalk with
  | refl => exact .refl w
  | tail _ hstep ih => exact ih.trans hstep.samePorts

/-- Every action but a new connection leaves the ports alone. -/
theorem samePorts_act {w : World} (hw : Inv .free w) (a : Action)
    (ha : ∀ peer prio kept, a ≠ .connect peer prio kept) : SamePorts w (w.act a) := by
  have hpermits := w.permits_all (S := Scope.free.numbered) (fun _ _ => trivial)
    (fun _ _ => trivial) (fun _ => trivial) a
  have hother : Scope.free.numbered.Fits a → SamePorts w (w.act a) := fun hfits =>
    .of_obeys (a.body_obeys False.elim hfits hpermits) hw
  cases a with
  | connect peer prio kept => exact absurd rfl (ha peer prio kept)
  | disconnect id => exact { SamePorts.refl w with }
  | frame conn ftype payload => cases ftype <;> exact hother (by trivial)
  | maintain => exact hother ⟨trivial, trivial, trivial, trivial, trivial, trivial, trivial, trivial⟩
  | _ => exact hother trivial

/-- What a registration does to the ports: the key has the one it had, or the next one. -/
structure Allots (k : Key) (w w' : World) : Prop where
  others : ∀ k', k' ≠ k → w'.router.tree.portOf k' = w.router.tree.portOf k'
  own : w'.router.tree.portOf k = some ((w.router.tree.portOf k).getD w.router.tree.nextPort)
  nextPort : w'.router.tree.nextPort =
    if k ∈ w.router.tree.peers then w.router.tree.nextPort else w.router.tree.nextPort + 1

theorem Allots.trans {k : Key} {w w' w'' : World} (h : Allots k w w') (h' : SamePorts w' w'') :
    Allots k w w'' where
  others k' hne := (h'.ports k').trans (h.others k' hne)
  own := (h'.ports k).trans h.own
  nextPort := h'.nextPort.trans h.nextPort

/-- `register` allots the port before it enters the link and writes anything. -/
theorem register_port (id : LinkId) (k : Key) (prio : UInt8) (w : World) :
    ∃ (req : SigReq) (tick : Nat) (n : UInt64),
      tick = (if k ∈ w.router.tree.peers then w.tick else w.tick + 1) ∧
      n = (if k ∈ w.router.tree.peers then w.router.tree.nextPort
        else w.router.tree.nextPort + 1) ∧
      register id k prio w = (do
        enterLink id k prio ((w.router.tree.portOf k).getD w.router.tree.nextPort)
          w.router.tree.peerOrder req
        greet id k req (k ∈ w.router.tree.peers) : RouterM Unit)
        { w with
          tick := tick
          router.tree.nextPort := n
          router.tree.peerOrder := w.router.tree.peerOrder + 1 } := by
  have hmem : k ∈ w.router.tree.peers ↔ (w.router.tree.portOf k).isSome :=
    TreeState.portOf_isSome.symm
  cases hk : w.router.tree.peers.lookup k with
  | some p =>
    have hport : w.router.tree.portOf k = some p.port := by rw [TreeState.portOf, hk]; rfl
    have hknown := hmem.mpr (Option.isSome_of_eq_some hport)
    refine ⟨p.req, w.tick, w.router.tree.nextPort, (if_pos hknown).symm, (if_pos hknown).symm, ?_⟩
    · rw [hport]
      simp [register, allocPort, openReq, hk, router, Prog.run_bind, modifyTree]
  | none =>
    have hport : w.router.tree.portOf k = none := by rw [TreeState.portOf, hk]; rfl
    obtain ⟨v, hv⟩ : ∃ v : World, v = { w with
        router.tree.nextPort := w.router.tree.nextPort + 1
        router.tree.peerOrder := w.router.tree.peerOrder + 1 } := ⟨_, rfl⟩
    obtain ⟨req, hreq⟩ : ∃ req, newReq v = (.ok req, { v with tick := v.tick + 1 }) := ⟨_, rfl⟩
    have hpeers : v.router.tree.peers = w.router.tree.peers := by rw [hv]
    have hunknown : k ∉ w.router.tree.peers := by
      rw [hmem, hport]
      exact Bool.false_ne_true
    refine ⟨req, w.tick + 1, w.router.tree.nextPort + 1, (if_neg hunknown).symm,
      (if_neg hunknown).symm, ?_⟩
    · rw [hport]
      simp [register, allocPort, openReq, hk, router, Prog.run_bind, modifyTree, ← hv, hreq, hpeers]
      simp [hv]

/-- The end of a connection that comes up. -/
def joinIf (kept : Bool) (link : Link) : RouterM Unit :=
  if kept then do
    let t ← now
    modify fun w => { w with links := w.links.add link t }
  else return ()

/-- The books when a new link is entered, before anything is written to it: its key has its port,
and the link carries the epoch. -/
structure Entered (k : Key) (w v : World) : Prop where
  links : v.links = w.links
  env : v.env = w.env
  tick : v.tick = if k ∈ w.router.tree.peers then w.tick else w.tick + 1
  ports : Allots k w v
  stamps : ∀ id, v.router.tree.stampAt id =
    if id = w.nextLink then some (some 0) else w.router.tree.stampAt id
  inv : Inv .free v

theorem enterLink_entered {w w₁ : World} {k : Key} {tick : Nat} {n : UInt64} (hw : Inv .free w)
    (hw₁ : w₁ = { w with
      nextLink := w.nextLink + 1
      tick := tick
      router.tree.nextPort := n
      router.tree.peerOrder := w.router.tree.peerOrder + 1 })
    (htick : tick = if k ∈ w.router.tree.peers then w.tick else w.tick + 1)
    (hn : n = if k ∈ w.router.tree.peers then w.router.tree.nextPort
      else w.router.tree.nextPort + 1) (prio : UInt8) (order : UInt64) (req : SigReq) :
    ∃ v, enterLink w.nextLink k prio ((w.router.tree.portOf k).getD w.router.tree.nextPort) order
      req w₁ = (.ok (), v) ∧ Entered k w v := by
  have hinv : Inv .free w₁ := hw₁ ▸ { hw.step .mint with }
  have hnew : w.nextLink ∉ w₁.links.ids := by
    rw [hw₁]
    exact hw.nextLink_new
  have henter : Obeys (rules .free False) (enterLink w.nextLink k prio
      ((w.router.tree.portOf k).getD w.router.tree.nextPort) order req) w₁ :=
    enterLink_obeys trivial trivial trivial trivial hnew _ _ _ _ _
  subst hw₁
  refine ⟨_, rfl, rfl, rfl, htick, ⟨fun k' hne => ?_, ?_, hn⟩, fun id => ?_,
    henter.inv_of_eq hinv rfl⟩
  · show ((w.router.tree.peers.insert k _).lookup k').map PeerState.port = _
    rw [AList.lookup_insert_ne hne]
    rfl
  · show ((w.router.tree.peers.insert k _).lookup k).map PeerState.port = _
    rw [AList.lookup_insert]
    rfl
  · show ((w.router.tree.links.insert w.nextLink _).lookup id).map LinkState.sentAt = _
    rw [Assoc.lookup_insert_ite]
    split <;> rfl

/-- **A connection is entered, greeted, and joins the set if it is kept.** -/
theorem connect_run {w : World} (hw : Inv .free w) (k : Key) (prio : UInt8) (kept : Bool) :
    ∃ req v, Entered k w v ∧ connect k prio kept w = (do
      greet w.nextLink k req (k ∈ w.router.tree.peers)
      joinIf kept ⟨w.nextLink, k⟩ : RouterM Unit) v := by
  obtain ⟨req, tick, n, htick, hn, hrun⟩ :=
    register_port w.nextLink k prio { w with nextLink := w.nextLink + 1 }
  obtain ⟨v, henter, hentered⟩ := enterLink_entered hw rfl htick hn prio w.router.tree.peerOrder req
  refine ⟨req, v, hentered, ?_⟩
  show (register w.nextLink k prio >>= fun _ => joinIf kept ⟨w.nextLink, k⟩)
    { w with nextLink := w.nextLink + 1 } = _
  rw [run_bind, hrun, run_bind_ok henter, run_bind]

/-- A connection that comes up has the port of its key, however `register` ends. -/
theorem connect_allots {w : World} (hw : Inv .free w) (k : Key) (prio : UInt8) (kept : Bool) :
    Allots k w (w.act (.connect k prio kept)) := by
  obtain ⟨req, v, hentered, hrun⟩ := connect_run hw k prio kept
  show Allots k w (connect k prio kept w).2
  rw [hrun]
  have hgreet := SamePorts.of_obeys (greet_allows trivial w.nextLink k req
    (k ∈ w.router.tree.peers) v) hentered.inv
  refine snd_bind (hentered.ports.trans hgreet) fun _ v' _ hallots => hallots.trans ?_
  cases kept <;> exact ⟨fun _ => rfl, rfl⟩

/-! ## Sockets that take every frame -/

/-- Every socket takes every frame. -/
def World.Taken (w : World) : Prop := ∀ n, w.env.writes n = true

/-- The program succeeds where every frame is taken, and the sockets stay as they are. -/
def Sure (m : RouterM Unit) : Prop :=
  ∀ w : World, w.Taken → ∃ w', m w = (.ok (), w') ∧ w'.env = w.env

namespace Sure

theorem pure : Sure (Pure.pure ()) := fun _ _ => ⟨_, rfl, rfl⟩

theorem bind {m m' : RouterM Unit} (hm : Sure m) (hm' : Sure m') : Sure (m >>= fun _ => m') := by
  intro w htaken
  obtain ⟨w₁, h₁, henv₁⟩ := hm w htaken
  obtain ⟨w₂, h₂, henv₂⟩ := hm' w₁ (fun n => henv₁ ▸ htaken n)
  exact ⟨w₂, (run_bind_ok h₁).trans h₂, henv₂.trans henv₁⟩

theorem writeConn (id : LinkId) (ftype : FrameType) (payload : Bytes) :
    Sure (writeConn id ftype payload) := by
  intro w htaken
  rw [writeConn_run, if_pos (htaken w.tick)]
  exact ⟨_, rfl, rfl⟩

theorem forEach {α : Type} {body : α → RouterM Unit} (hbody : ∀ a, Sure (body a)) :
    ∀ l, Sure (Prog.forEach l body)
  | [] => pure
  | a :: l => (hbody a).bind (forEach hbody l)

end Sure

theorem sure_sendFilter (id : LinkId) (peer : Key) : Sure (sendFilter id peer) := by
  intro w htaken
  rw [sendFilter, router, Prog.gets_bind]
  cases w.router.bloom.send.lookup peer with
  | none => exact Sure.writeConn _ _ _ w htaken
  | some b =>
    dsimp only
    rw [BloomFilter.encode_eq]
    exact Sure.writeConn _ _ _ w htaken

theorem sure_replay (id : LinkId) (peer : Key) : Sure (replay id peer) := by
  intro w htaken
  rw [replay, router, Prog.gets_bind, iterate, draw_bind]
  refine Sure.forEach (fun k => ?_) _ _ htaken
  cases w.router.tree.infos.lookup k with
  | none => exact Sure.pure
  | some info => exact Sure.writeConn _ _ _

theorem sure_greet (id : LinkId) (peer : Key) (req : SigReq) (known : Bool) :
    Sure (greet id peer req known) := by
  refine (sure_sendFilter id peer).bind ((Sure.writeConn id _ _).bind ?_)
  cases known with
  | false => exact Sure.pure
  | true => exact sure_replay id peer

/-- A connection that is kept joins the set. -/
theorem connect_joins {w : World} (hw : Inv .free w) (htaken : w.Taken) (k : Key) (prio : UInt8) :
    (⟨w.nextLink, k⟩ : Link) ∈ (w.act (.connect k prio true)).links.entries := by
  obtain ⟨req, v, hentered, hrun⟩ := connect_run hw k prio true
  have htaken' : v.Taken := fun n => by
    rw [hentered.env]
    exact htaken n
  obtain ⟨v', hgreet, -⟩ := sure_greet w.nextLink k req (decide (k ∈ w.router.tree.peers)) v htaken'
  show _ ∈ (connect k prio true w).2.links.entries
  rw [hrun, run_bind_ok hgreet]
  exact List.mem_append_right _ (List.mem_singleton_self _)

/-! ## Times of requests -/

/-- The same context with the times of requests as they are. -/
def Scope.stamped (S : Scope) : Scope := { S with rewires := False, stamps := False }

/-- The times of requests are as they were, and no link joined the set. -/
structure SameStamps (w w' : World) : Prop where
  stamps : ∀ id, w'.router.tree.stampAt id = w.router.tree.stampAt id
  ids : w'.links.ids ⊆ w.links.ids

theorem SameStamps.refl (w : World) : SameStamps w w := ⟨fun _ => rfl, List.Subset.refl _⟩

theorem SameStamps.trans {w w' w'' : World} (h : SameStamps w w') (h' : SameStamps w' w'') :
    SameStamps w w'' :=
  ⟨fun id => (h'.stamps id).trans (h.stamps id), List.Subset.trans h'.ids h.ids⟩

theorem Step.sameStamps {w w' : World} (h : Step S.stamped w w') : SameStamps w w' := by
  cases h with
  | linkStates m hm hstamps => exact { SameStamps.refl w with stamps := hstamps.resolve_left id }
  | retire id => exact { SameStamps.refl w with ids := w.links.ids_remove_subset id }
  | expire _ t =>
    refine { SameStamps.refl w with stamps := fun id => ?_ }
    show (w.router.tree.expire t).stampAt id = w.router.tree.stampAt id
    rw [TreeState.stampAt, TreeState.stampAt, (w.router.tree.expire_aged t).links]
  | enter hrewires | join hrewires | leave hrewires => exact hrewires.elim
  | _ => exact { SameStamps.refl w with }

theorem SameStamps.of_obeys {α : Type} {m : RouterM α} {w : World}
    (hm : Obeys (rules S.stamped False) m w) (hw : Inv S w) : SameStamps w (m w).2 := by
  have hwalk := hm.walk ({ hw with } : Inv S.stamped w)
  generalize (m w).2 = w' at hwalk
  induction hwalk with
  | refl => exact .refl w
  | tail _ hstep ih => exact ih.trans hstep.sameStamps

/-- An action that neither makes nor breaks a connection and asks nobody leaves them alone. -/
theorem sameStamps_act {w : World} (hw : Inv .free w) (a : Action)
    (hfits : Scope.free.stamped.Fits a) : SameStamps w (w.act a) := by
  have hpermits := w.permits_all (S := Scope.free.stamped) (fun _ _ => trivial)
    (fun _ _ => trivial) (fun _ => trivial) a
  exact .of_obeys (a.body_obeys False.elim hfits hpermits) hw

end Roots

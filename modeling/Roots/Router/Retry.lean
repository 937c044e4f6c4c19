import Roots.Router.Abort
import Roots.Router.Parent
import Roots.Router.Rumor

/-!
# Roots.Router.Retry

What becomes of a payload whose message could not be written. `session_send_inner` keeps it
in the resend queue, as a destination and the bytes; the packet type it was sent with is
**not** kept, and the next `serve_links` passes it to `session_send`, which is for
application traffic. A payload therefore keeps its type exactly as long as none of the
protocol's own payloads fails to be written (`sealed_kind`).
-/

namespace Roots

open Prog RouterM Wire
open Sample (smallKey)

section

variable [Crypto]

/-! ## Packet types -/

/-- The context in which a payload is only sealed with the packet type it was submitted
with. -/
def Scope.kinds : Scope where
  flush _ := True
  passes _ _ := True
  seals kind p := kind = p.kind
  rewires := True
  grows := True
  adopts := True
  ages := True
  marks := True
  filters := True
  drops := True
  drains := True
  passes_of_none _ := trivial
  passes_of_owns _ _ := trivial
  seals_kind _ := rfl

omit [Crypto] in
theorem Scope.kinds_open : Scope.kinds.Open :=
  ⟨trivial, trivial, trivial, trivial, trivial, trivial, trivial, trivial, trivial, trivial, trivial,
    trivial⟩

/-- What an action must not do: send what is queued while a payload of the protocol is
among it. -/
def World.KeepsKinds (w : World) : Action → Prop
  | .sendOutbox => ∀ x ∈ w.outbox, x.2.tag ≠ .proto
  | _ => True

theorem World.KeepsKinds.permits {w : World} {a : Action} (h : w.KeepsKinds a) :
    w.Permits .kinds False a := by
  cases a with
  | sendOutbox => exact ⟨False.elim, fun x hx => (Payload.kind_of_tag (h x hx)).symm⟩
  | frame => exact ⟨fun _ _ _ _ => trivial, fun _ _ _ _ _ _ => trivial, False.elim⟩
  | sendOrResolve => exact fun _ _ _ => trivial
  | request | setNodeinfo => exact False.elim
  | _ => trivial

/-- **Every session message carries the packet type its payload was submitted with**, in
every run in which no protocol payload is sent from the queue: what a session is given to
seal is that type and then the payload. -/
theorem sealed_kind {seed : Key} {env : Env} {actions : List Action}
    (h : (World.init seed env).Along World.KeepsKinds actions) {dest : Key} {plain : Bytes}
    {p : Payload} (hsealed : .sealed dest plain p ∈ ((World.init seed env).run actions).events) :
    plain = p.kind :: p.bytes := by
  have hinit : Inv .kinds (World.init seed env) := .init trivial env
  obtain ⟨kind, rfl, rfl⟩ :=
    (hinit.run Scope.kinds_open (fun _ hP => hP.permits) h).events _ hsealed
  rfl

/-! ## A write that fails -/

theorem send_fails {w : World} {id : LinkId} (hlive : id ∈ w.links.ids)
    (hwrite : w.env.writes w.tick = false) (ftype : FrameType) (payload : Bytes) :
    send id ftype payload w =
      (.error (.err .io), { w with tick := w.tick + 1, links := w.links.remove id }) := by
  have hpeer := LinkSet.isNone_peerOf hlive
  rw [send, links, Prog.gets_bind, hpeer]
  simp [writeFrame, draw, run_bind, hwrite, fail]

section Fails

variable {w : World} {dest : Key} {path : List UInt64} {id : LinkId} {watermark : UInt64}

/-- A message for a known path fails with the write to its next hop. -/
theorem netSend_fails (hpath : w.router.path.workingPath dest = some path)
    (hnext : w.router.tree.greedyNext w.links w.router.pubkey path maxU64 = (some id, watermark))
    (hlive : id ∈ w.links.ids) (hwrite : w.env.writes w.tick = false) (b : Bytes) :
    netSend dest b w =
      (.error (.err .io), { w with tick := w.tick + 1, links := w.links.remove id }) := by
  have hpeer := LinkSet.isNone_peerOf hlive
  show pathfinderSend (netSendDepth 1) dest b w = _
  rw [pathfinderSend, router, Prog.gets_bind, hpath]
  show routeTraffic dest path b w = _
  rw [routeTraffic, router, Prog.gets_bind, forward, greedy]
  simp only [run_bind, run_gets, hnext, lift, Traffic.encode_eq, writeVia, links, hpeer,
    Bool.false_eq_true, if_false, send_fails hlive hwrite]

/-- The payload of a message that could not be written is queued for a retry, and the
session stays. -/
theorem sessionSendInner_fails (hworn : ¬ w.Worn) (hsession : dest ∈ w.router.sess.sessions)
    (hpath : w.router.path.workingPath dest = some path)
    (hnext : w.router.tree.greedyNext w.links w.router.pubkey path maxU64 = (some id, watermark))
    (hlive : id ∈ w.links.ids) (hwrite : w.env.writes (w.tick + 2) = false) (kind : UInt8)
    (msg : Payload) :
    ∃ w', sessionSendInner netSend dest kind msg w = (.error (.err .io), w') ∧
      w'.router.sess.resend = w.router.sess.resend ++ [(dest, msg)] ∧
      dest ∈ w'.router.sess.sessions ∧ w'.outbox = w.outbox := by
  obtain ⟨⟨s, t⟩, hs⟩ := Assoc.mem_iff_lookup.mp hsession
  have hroom : s.localKeySeq + 1 ≠ 0 := fun hlast => hworn ⟨dest, s, t, hs, hlast⟩
  rw [sessionSendInner_run netSend hs, Session.encryptChecked_of_ne hroom]
  simp only [World.sealing]
  generalize hw : World.mk _ _ _ _ _ _ _ = w₁
  have hsend := @netSend_fails _ w₁ dest path id watermark
  subst hw
  rw [run_bind, result, attempt, hsend hpath hnext hlive hwrite]
  exact ⟨_, rfl, rfl, AList.mem_insert _ |>.mpr (.inl rfl), rfl⟩

theorem request_fails (hworn : ¬ w.Worn) (hsession : dest ∈ w.router.sess.sessions)
    (hpath : w.router.path.workingPath dest = some path)
    (hnext : w.router.tree.greedyNext w.links w.router.pubkey path maxU64 = (some id, watermark))
    (hlive : id ∈ w.links.ids) (hwrite : w.env.writes (w.tick + 2) = false) (b : Bytes) :
    (w.act (.request dest b)).router.sess.resend =
        w.router.sess.resend ++ [(dest, ⟨b, .proto⟩)] ∧
      dest ∈ (w.act (.request dest b)).router.sess.sessions ∧
      (w.act (.request dest b)).outbox = w.outbox := by
  obtain ⟨w', hrun, hresend, hmem, houtbox⟩ :=
    sessionSendInner_fails hworn hsession hpath hnext hlive hwrite packetTypeProto ⟨b, .proto⟩
  have hact : w.act (.request dest b) = w' := by
    show (sessionSendKind netSend dest packetTypeProto ⟨b, .proto⟩ w).2 = w'
    rw [sessionSendKind, router, Prog.gets_bind, if_pos hsession, hrun]
  rw [hact]
  exact ⟨hresend, hmem, houtbox⟩

end Fails

/-! ## The retry -/

/-- With a session, a message is made of the payload. -/
theorem sealed_of_sessionSendInner {w : World} (hw : Inv .free w) {dest : Key}
    (hsession : dest ∈ w.router.sess.sessions) (kind : UInt8) (msg : Payload) :
    .sealed dest (kind :: msg.bytes) msg ∈ (sessionSendInner netSend dest kind msg w).2.events := by
  obtain ⟨⟨s, t⟩, hs⟩ := Assoc.mem_iff_lookup.mp hsession
  have hnoted : .sealed dest (kind :: msg.bytes) msg ∈ (w.sealing dest kind msg).events :=
    List.mem_append.mpr (.inr (List.mem_singleton.mpr rfl))
  rw [sessionSendInner_run netSend hs]
  cases s.encryptChecked (kind :: msg.bytes) (freshBox (w.env.boxKey (w.tick + 1))) with
  | none => exact hnoted
  | some sealed =>
    have hread : Inv .free { w with tick := w.tick + 1 + 1 } := (hw.step .tick).step .tick
    have hsealing : Inv .free (w.sealing dest kind msg) :=
      hread.step (Step.note (S := .free) (.sealed dest (kind :: msg.bytes) msg) rfl
        ⟨kind, rfl, trivial⟩ nofun)
    have hstored := hsealing.step (.session trivial dest sealed.1 (w.env.now w.tick)
      (hw.valid dest hsession))
    refine events_subset_of_walk (Obeys.walk (R := rules .free False) ?_ hstored) hnoted
    refine result_bind_obeys (netSend_allows False.elim _ _ _) (fun _ _ _ => ?_)
      fun e _ hnot _ => ?_
    · exact .modify fun _ => .note (.carried dest msg) rfl trivial nofun
    · exact .modify_bind (fun _ => .resend dest msg trivial) (refail_allows hnot _)

theorem sealed_of_sessionSendKind {w : World} (hw : Inv .free w) {dest : Key}
    (hsession : dest ∈ w.router.sess.sessions) (kind : UInt8) (msg : Payload) :
    .sealed dest (kind :: msg.bytes) msg ∈ (sessionSendKind netSend dest kind msg w).2.events := by
  rw [sessionSendKind, router, Prog.gets_bind, if_pos hsession]
  exact sealed_of_sessionSendInner hw hsession kind msg

theorem sealed_of_request {w : World} (hw : w.Reachable) {dest : Key}
    (hsession : dest ∈ w.router.sess.sessions) (b : Bytes) :
    .sealed dest (packetTypeProto :: b) ⟨b, .proto⟩ ∈ (w.act (.request dest b)).events :=
  sealed_of_sessionSendKind hw.inv hsession packetTypeProto ⟨b, .proto⟩

/-- `session_send` seals for application traffic, whatever the payload is. -/
theorem sealed_of_sessionSend {w : World} (hw : Inv .free w) {dest : Key}
    (hsession : dest ∈ w.router.sess.sessions) (msg : Payload) :
    .sealed dest (packetTypeTraffic :: msg.bytes) msg ∈ (sessionSend netSend dest msg w).2.events := by
  rw [sessionSend, record, Prog.modify_bind]
  exact sealed_of_sessionSendKind
    (hw.step (Step.note (S := .free) (.passed dest msg) rfl trivial fun h => by cases h)) hsession
    _ msg

/-- What a call records is still there when its caller has let go of something. -/
theorem mem_events_orLose {m : RouterM Unit} {w : World} (items : List (Key × Payload))
    {e : Event} (h : e ∈ (m w).2.events) : e ∈ (orLose items m w).2.events := by
  rw [orLose, run_bind, result, attempt]
  cases hrun : m w with
  | mk r w' =>
    rw [hrun] at h
    cases r with
    | ok => exact h
    | error exit =>
      cases exit with
      | err => exact List.mem_append.mpr (.inl h)
      | panic | stuck => exact h

theorem sealed_of_sendOutbox {w : World} (hw : Inv .free w) {dest : Key} {msg : Payload}
    {rest : List (Key × Payload)} (houtbox : w.outbox = (dest, msg) :: rest)
    (hsession : dest ∈ w.router.sess.sessions) :
    .sealed dest (packetTypeTraffic :: msg.bytes) msg ∈ (w.act .sendOutbox).events := by
  have hw₁ : Inv .free { w with outbox := [] } := hw.step (.takeOutbox trivial)
  have hsend : (rules .free False).Allows (sessionSend netSend dest msg) := fun _ =>
    sessionSend_obeys (sendsFrom_of_allows (netSend_allows False.elim) _ _) False.elim trivial
      trivial
  have hsealed := mem_events_orLose rest (sealed_of_sessionSend hw₁ hsession msg)
  show _ ∈ (sendOutbox w).2.events
  rw [sendOutbox, Prog.gets_bind, Prog.modify_bind, houtbox]
  exact mem_events_bind hw₁ (orLose_obeys (hsend _))
    (fun _ => sendAll_allows False.elim False.elim fun _ _ => ⟨trivial, trivial⟩) hsealed

/-- A request whose write fails comes back as application traffic. -/
theorem request_retried_as_traffic {w : World} (hw : w.Reachable) {dest : Key}
    {path : List UInt64} {id : LinkId} {watermark : UInt64} (hworn : ¬ w.Worn)
    (hsession : dest ∈ w.router.sess.sessions)
    (hpath : w.router.path.workingPath dest = some path)
    (hnext : w.router.tree.greedyNext w.links w.router.pubkey path maxU64 = (some id, watermark))
    (hlive : id ∈ w.links.ids) (hwrite : w.env.writes (w.tick + 2) = false)
    (hresend : w.router.sess.resend = []) (b : Bytes) :
    .sealed dest (packetTypeTraffic :: b) ⟨b, .proto⟩ ∈
      (((w.act (.request dest b)).act .requeue).act .sendOutbox).events := by
  obtain ⟨hqueued, hmem, -⟩ := request_fails hworn hsession hpath hnext hlive hwrite b
  rw [hresend, List.nil_append] at hqueued
  have hinv : Inv .free ((w.act (.request dest b)).act .requeue) := ((hw.act _).act _).inv
  have houtbox : ((w.act (.request dest b)).act .requeue).outbox =
      (dest, ⟨b, .proto⟩) :: (w.act (.request dest b)).outbox := by
    show (w.act (.request dest b)).router.sess.resend ++ _ = _
    rw [hqueued, List.singleton_append]
  exact sealed_of_sendOutbox hinv houtbox hmem

end

/-! ## A run -/

section

attribute [local instance] Sample.lenient

/-- A notify from the root with key 3. -/
def rootNotify : PathNotify where
  path := []
  watermark := 0
  source := smallKey 3
  dest := smallKey 9
  info := NotifyInfo.signed (smallKey 3) 1000 []

/-- The node with key 9 gets a session with its neighbour, a path to it and its announce. -/
def meet : List Action :=
  [.connect (smallKey 3) 0 true, .frame 0 .traffic hello.bytes,
    .frame 0 .pathNotify rootNotify.encode, .frame 0 .announce lowRoot.encode]

def acquainted : World := (World.init (smallKey 9) (.refusing 20)).run meet

theorem acquainted_reachable : acquainted.Reachable := ⟨_, _, _, rfl⟩

theorem acquainted_facts : ¬ acquainted.Worn ∧ smallKey 3 ∈ acquainted.router.sess.sessions ∧
    acquainted.router.path.workingPath (smallKey 3) = some [] ∧
    acquainted.router.tree.greedyNext acquainted.links acquainted.router.pubkey [] maxU64 =
      (some 0, maxU64) ∧
    0 ∈ acquainted.links.ids ∧ acquainted.env.writes (acquainted.tick + 2) = false ∧
    acquainted.router.sess.resend = [] := by decide +kernel

/-- The write of a request fails, and the next drain of the outbox sends its payload as
application traffic. -/
theorem request_changes_kind :
    (((acquainted.act (.request (smallKey 3) [1])).act .requeue).act .sendOutbox).Reachable ∧
      .sealed (smallKey 3) [packetTypeTraffic, 1] ⟨[1], .proto⟩ ∈
        (((acquainted.act (.request (smallKey 3) [1])).act .requeue).act .sendOutbox).events ∧
      packetTypeTraffic ≠ (⟨[1], .proto⟩ : Payload).kind := by
  obtain ⟨hworn, hsession, hpath, hnext, hlive, hwrite, hresend⟩ := acquainted_facts
  exact ⟨((acquainted_reachable.act _).act _).act _,
    request_retried_as_traffic acquainted_reachable hworn hsession hpath hnext hlive hwrite
      hresend [1],
    by decide⟩

/-- The first message of the request has its type. -/
theorem sealed_kind_request :
    .sealed (smallKey 3) [packetTypeProto, 1] ⟨[1], .proto⟩ ∈
        ((World.init (smallKey 9) (.refusing 20)).run
          (meet ++ [.request (smallKey 3) [1]])).events ∧
      [packetTypeProto, 1] = (⟨[1], .proto⟩ : Payload).kind :: [1] := by
  obtain ⟨-, hsession, -⟩ := acquainted_facts
  have hsealed : .sealed (smallKey 3) [packetTypeProto, 1] ⟨[1], .proto⟩ ∈
      ((World.init (smallKey 9) (.refusing 20)).run
        (meet ++ [.request (smallKey 3) [1]])).events := by
    rw [World.run_append, World.run_cons, World.run_nil]
    exact sealed_of_request acquainted_reachable hsession [1]
  refine ⟨hsealed, sealed_kind (World.along_of_forall fun a ha w => ?_) hsealed⟩
  simp only [meet, List.cons_append, List.nil_append, List.mem_cons, List.not_mem_nil,
    or_false] at ha
  rcases ha with rfl | rfl | rfl | rfl | rfl <;> trivial

end

end Roots

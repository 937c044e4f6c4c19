import Roots.Router.Rules.Beside
import Roots.Router.Serve

/-!
# Roots.Router.Filing

What comes into the two inboxes of the router. Payloads are filed where traffic for this node is
opened and nowhere else: **sending, maintaining and every other frame leave both inboxes as they
are**, even when the key that is sent to is the router's own. What is filed goes to the end, and
what goes to the protocol inbox is a response (`isResponse`).
-/

namespace Roots

open Prog RouterM

section

variable [Crypto]

/-- A payload of the protocol inbox: a nodeinfo response, or one of the three debug responses. -/
def isResponse : Bytes → Bool
  | [] => false
  | [kind] => kind = protoNodeinfoRes
  | kind :: sub :: _ =>
      kind = protoNodeinfoRes ∨
        (kind = protoDebug ∧
          (sub = debugGetselfRes ∨ sub = debugGetpeersRes ∨ sub = debugGettreeRes))

/-- Payloads were filed, if any may be. -/
structure Filed (opens : Prop) (w w' : World) : Prop where
  inbox : ∃ more, w'.router.inbox = w.router.inbox ++ more ∧ (more ≠ [] → opens)
  proto : ∃ more, w'.router.protoInbox = w.router.protoInbox ++ more ∧ (more ≠ [] → opens) ∧
    ∀ x ∈ more, isResponse x.2 = true

variable {opens : Prop} {w w' w'' : World}

/-- Both inboxes are as they were. -/
theorem Filed.same (hinbox : w'.router.inbox = w.router.inbox)
    (hproto : w'.router.protoInbox = w.router.protoInbox) : Filed opens w w' where
  inbox := ⟨[], by rw [hinbox, List.append_nil], fun h => absurd rfl h⟩
  proto := ⟨[], by rw [hproto, List.append_nil], fun h => absurd rfl h,
    fun _ hx => absurd hx List.not_mem_nil⟩

theorem Filed.refl (w : World) : Filed opens w w := .same rfl rfl

theorem Filed.trans (h : Filed opens w w') (h' : Filed opens w' w'') : Filed opens w w'' := by
  obtain ⟨more, hmore, hopens⟩ := h.inbox
  obtain ⟨more', hmore', hopens'⟩ := h'.inbox
  obtain ⟨new, hnew, hnews, hresponse⟩ := h.proto
  obtain ⟨new', hnew', hnews', hresponse'⟩ := h'.proto
  have heither : ∀ {l l' : List (Key × Bytes)}, (l ≠ [] → opens) → (l' ≠ [] → opens) →
      l ++ l' ≠ [] → opens := by
    intro l l' hl hl' hne
    cases l with
    | nil => exact hl' hne
    | cons x l => exact hl (List.cons_ne_nil x l)
  refine ⟨⟨more ++ more', ?_, heither hopens hopens'⟩, new ++ new', ?_, heither hnews hnews', ?_⟩
  · rw [hmore', hmore, List.append_assoc]
  · rw [hnew', hnew, List.append_assoc]
  · intro x hx
    rcases List.mem_append.mp hx with hx | hx
    · exact hresponse x hx
    · exact hresponse' x hx

/-- Where nothing may be filed, nothing is. -/
theorem Filed.of_not (h : Filed opens w w') (hclosed : ¬ opens) :
    w'.router.inbox = w.router.inbox ∧ w'.router.protoInbox = w.router.protoInbox := by
  obtain ⟨more, hmore, hopens⟩ := h.inbox
  obtain ⟨new, hnew, hnews, -⟩ := h.proto
  have hnil : more = [] := by_contra fun hne => hclosed (hopens hne)
  have hnil' : new = [] := by_contra fun hne => hclosed (hnews hne)
  rw [hmore, hnew, hnil, hnil', List.append_nil, List.append_nil]
  exact ⟨rfl, rfl⟩

/-- Programs that file payloads, if any may be filed, and leave the inboxes alone otherwise. -/
def filing (opens : Prop) : Rules World Exit where
  step := Filed opens
  inv _ := True
  bad _ _ := False
  keeps _ _ := trivial

theorem records_filing (ftype : FrameType) : Records (filing opens) ftype :=
  fun _ _ _ _ => Filed.same rfl rfl

instance : Beside (filing opens) where
  tick _ _ := .same rfl rfl
  wrote _ _ := records_filing _
  stamp _ _ _ := .same rfl rfl
  retire _ _ _ _ := .same rfl rfl
  not_bad _ _ _ h := h
  steady _ _ _ h := h
  tree _ _ _ := .same rfl rfl
  bloom _ _ _ := .same rfl rfl
  filter := records_filing _
  leave _ _ _ := .same rfl rfl
  mild _ _ h := h

theorem Filed.of_allows {α : Type} {m : RouterM α} (hm : (filing opens).Allows m) (w : World) :
    Filed opens w (m w).2 := by
  have hwalk := (hm w).walk trivial
  generalize (m w).2 = w' at hwalk
  induction hwalk with
  | refl => exact .refl w
  | tail _ hstep ih => exact ih.trans hstep

theorem record_filing (e : Event) : (filing opens).Allows (record e) :=
  .modify fun _ _ => .same rfl rfl

theorem modifyPath_filing (f : PathState → PathState) : (filing opens).Allows (modifyPath f) :=
  .modify fun _ _ => .same rfl rfl

theorem modifySess_filing (f : SessionState → SessionState) :
    (filing opens).Allows (modifySess f) := .modify fun _ _ => .same rfl rfl

theorem storeSession_filing (peer : Key) (x : Session) (t : Instant) :
    (filing opens).Allows (storeSession peer x t) := modifySess_filing _

theorem lose_filing (items : List (Key × Payload)) : (filing opens).Allows (lose items) :=
  .modify fun _ _ => .same rfl rfl

theorem orLose_filing {items : List (Key × Payload)} {m : RouterM Unit}
    (hm : (filing opens).Allows m) : (filing opens).Allows (orLose items m) := by
  refine result_beside hm fun done => ?_
  cases done with
  | ok => exact .pure _
  | error e => exact .bind (lose_filing _) fun _ => exit_beside _

/-! ## Sending -/

theorem takeInitSeq_filing : (filing opens).Allows takeInitSeq :=
  .bind (draw_allows _) fun _ => .gets_bind fun _ => .bind (modifySess_filing _) fun _ => .pure _

section Send

variable {netSend : NetSend} (hsend : ∀ dest b, (filing opens).Allows (netSend dest b))

include hsend

theorem sessionSendInner_filing (dest : Key) (kind : UInt8) (msg : Payload) :
    (filing opens).Allows (sessionSendInner netSend dest kind msg) := by
  refine .gets_bind fun r => ?_
  split
  · exact .pure _
  · refine .bind (draw_allows _) fun t => .bind (draw_allows _) fun keys =>
      .bind (record_filing _) fun _ => .bind (checked_beside _) fun sealed =>
        .bind (storeSession_filing _ _ _) fun _ => result_beside (hsend _ _) fun sent => ?_
    cases sent with
    | ok => exact record_filing _
    | error e => exact .bind (modifySess_filing _) fun _ => exit_beside _

theorem sessionSendKind_filing (dest : Key) (kind : UInt8) (msg : Payload) :
    (filing opens).Allows (sessionSendKind netSend dest kind msg) := by
  refine .gets_bind fun r => .ite (sessionSendInner_filing hsend _ _ _) ?_
  refine .bind (draw_allows _) fun t => .bind takeInitSeq_filing fun seq =>
    .bind (draw_allows _) fun send => .bind (draw_allows _) fun next => ?_
  refine .bind (.modify fun _ _ => .same rfl rfl) fun _ => .bind (modifySess_filing _) fun _ => ?_
  exact .bind (encryptInit_beside _ _ _) fun enc => hsend dest enc

theorem sessionSend_filing (dest : Key) (msg : Payload) :
    (filing opens).Allows (sessionSend netSend dest msg) :=
  .bind (record_filing _) fun _ => sessionSendKind_filing hsend _ _ _

theorem protoSend_filing (dest : Key) (payload : Bytes) :
    (filing opens).Allows (protoSend netSend dest payload) := sessionSendKind_filing hsend _ _ _

/-! ## Paths -/

theorem flush_filing (source : Key) : (filing opens).Allows (flush netSend source) := by
  refine .gets_bind fun r => ?_
  split
  · exact .pure _
  · refine .bind (.modify fun _ _ => .same rfl rfl) fun _ => ?_
    exact .ite (sessionSend_filing hsend _ _) (hsend _ _)

theorem handleNotify_filing (notify : PathNotify) :
    (filing opens).Allows (handleNotify netSend notify) :=
  handleNotify_allows (.gets_bind fun _ => .ite (.bind (draw_allows _) fun _ =>
    .bind (modifyPath_filing _) fun _ => flush_filing hsend _) (.pure _))

theorem handleLookup_filing (src : Key) (lookup : PathLookup) :
    (filing opens).Allows (handleLookup netSend src lookup) :=
  .bind (multicast_beside (records_filing _) _ _ _) fun _ => .gets_bind fun _ => .ite (.pure _)
    (.bind (draw_allows _) fun _ => .bind (modifyPath_filing _) fun _ =>
      handleNotify_filing hsend _)

theorem rumorLookup_filing (dest : Key) : (filing opens).Allows (rumorLookup netSend dest) :=
  .bind (draw_allows _) fun _ => .gets_bind fun _ => .ite (.pure _)
    (.bind (modifyPath_filing _) fun _ => .gets_bind fun _ => handleLookup_filing hsend _ _)

theorem holdForLookup_filing (dest : Key) (payload : Payload) :
    (filing opens).Allows (holdForLookup netSend dest payload) :=
  .bind (draw_allows _) fun _ => .gets_bind fun _ => .bind (modifyPath_filing _) fun _ =>
    .ite (.pure _) (rumorLookup_filing hsend _)

theorem handleBroken_filing (broken : PathBroken) :
    (filing opens).Allows (handleBroken netSend broken) :=
  handleReport_allows (.gets_bind fun _ => .ite (.bind (modifyPath_filing _) fun _ =>
    rumorLookup_filing hsend _) (.pure _))

theorem pathfinderSend_filing (dest : Key) (payload : Bytes) :
    (filing opens).Allows (pathfinderSend netSend dest payload) := by
  refine .gets_bind fun r => ?_
  split
  · exact routeTraffic_allows _ _ _
  · exact .bind (rumorLookup_filing hsend _) fun _ => .modify fun _ _ => .same rfl rfl

end Send

/-- **`net_send` files nothing**, whomever it sends to. -/
theorem netSend_filing (dest : Key) (b : Bytes) : (filing opens).Allows (netSend dest b) := by
  have hdepth : ∀ depth dest b, (filing opens).Allows (netSendDepth depth dest b) := by
    intro depth
    induction depth with
    | zero => exact fun _ _ => exit_beside _
    | succ depth ih => exact fun dest b => pathfinderSend_filing ih dest b
  exact hdepth 2 dest b

/-! ## What comes in -/

section Open

variable (hopens : opens)

include hopens

theorem pushProto_filing {payload : Bytes} (h : isResponse payload = true) (src : Key) :
    (filing opens).Allows (pushProto src payload) := by
  refine .modify fun w _ => ⟨⟨[], (List.append_nil _).symm, fun h => absurd rfl h⟩,
    [(src, payload)], rfl, fun _ => hopens, fun x hx => ?_⟩
  rw [List.mem_singleton.mp hx]
  exact h

theorem handleDebugBytes_filing (src : Key) (payload : Bytes) :
    (filing opens).Allows (handleDebugBytes netSend src payload) := by
  have hproto : ∀ b, (filing opens).Allows (protoSend netSend src b) :=
    protoSend_filing netSend_filing src
  refine .gets_bind fun r => ?_
  split
  · exact .pure _
  · rename_i kind rest
    refine .ite (hproto _) (.ite (hproto _) (.ite (hproto _) ?_))
    split
    · rename_i hkind
      exact pushProto_filing hopens (by simp [isResponse, hkind]) src
    · exact .pure _

theorem handleProtoBytes_filing (src : Key) (payload : Bytes) :
    (filing opens).Allows (handleProtoBytes netSend src payload) := by
  refine .gets_bind fun r => ?_
  split
  · exact .pure _
  · rename_i kind rest
    refine .ite (protoSend_filing netSend_filing _ _) ?_
    split
    · rename_i hkind
      refine pushProto_filing hopens ?_ src
      cases rest with
      | nil => simp [isResponse, hkind]
      | cons sub rest => simp [isResponse, hkind]
    · exact .ite (handleDebugBytes_filing hopens _ _) (.pure _)

theorem deliver_filing (src : Key) (payload : Bytes) :
    (filing opens).Allows (deliver netSend src payload) := by
  cases payload with
  | nil => exact .pure _
  | cons kind payload =>
    refine .ite (.modify fun w _ => ?_) (.ite (handleProtoBytes_filing hopens _ _) (.pure _))
    exact ⟨⟨[(src, payload)], rfl, fun _ => hopens⟩, [], (List.append_nil _).symm,
      fun h => absurd rfl h, fun _ hx => absurd hx List.not_mem_nil⟩

omit hopens in
theorem sendAck_filing (dest : Key) (ack : Option SessionInit) :
    (filing opens).Allows (sendAck netSend dest ack) := by
  cases ack with
  | none => exact .pure _
  | some ack => exact .bind (encryptInit_beside _ _ _) fun enc => netSend_filing dest enc

omit hopens in
theorem openSession_filing (src : Key) (init : SessionInit) (t : Instant) :
    (filing opens).Allows (openSession netSend src init t) := by
  refine .gets_bind fun r => .bind (draw_allows _) fun recv => .bind (draw_allows _) fun send =>
    .bind (draw_allows _) fun next => .bind (modifySess_filing _) fun _ =>
      .bind takeInitSeq_filing fun seq => .bind (draw_allows _) fun keys =>
        .bind (checked_beside _) fun handled => .bind (storeSession_filing _ _ _) fun _ =>
          .bind (orLose_filing (sendAck_filing _ _)) fun _ => ?_
  split
  · exact .pure _
  · exact sessionSendInner_filing netSend_filing _ _ _

omit hopens in
theorem abortUpdate_filing (src : Key) (x updated : Session) (t : Instant) :
    (filing opens).Allows (abortUpdate src x updated t) :=
  .bind (storeSession_filing _ _ _) fun _ => exit_beside _

omit hopens in
theorem onInit_filing (src : Key) (isAck : Bool) (init : SessionInit) (t : Instant) :
    (filing opens).Allows (onInit netSend src isAck init t) := by
  refine .gets_bind fun r => ?_
  split
  · exact openSession_filing _ _ _
  · refine .ite (.bind (draw_allows _) fun keys => ?_)
      (.bind takeInitSeq_filing fun seq => .bind (draw_allows _) fun keys => ?_)
    · split
      · exact storeSession_filing _ _ _
      · exact abortUpdate_filing _ _ _ _
    · split
      · exact .bind (storeSession_filing _ _ _) fun _ => sendAck_filing _ _
      · exact abortUpdate_filing _ _ _ _

theorem onTraffic_filing (src : Key) (data : Bytes) (t : Instant) :
    (filing opens).Allows (onTraffic netSend src data t) := by
  have hinit : ∀ init, (filing opens).Allows (do
      let enc ← encryptInit init sessionTypeInit src
      netSend src enc : RouterM Unit) := fun init =>
    .bind (encryptInit_beside _ _ _) fun enc => netSend_filing src enc
  refine .bind takeInitSeq_filing fun seq => .gets_bind fun r => ?_
  split
  · refine .bind (draw_allows _) fun keys => .bind (draw_allows _) fun t' =>
      .bind (checked_beside _) fun opened => ?_
    split
    · exact .bind (storeSession_filing _ _ _) fun _ => deliver_filing hopens _ _
    · exact hinit _
  · refine .bind (draw_allows _) fun _ => .bind (draw_allows _) fun _ => ?_
    exact .bind takeInitSeq_filing fun _ => hinit _

theorem handleInboundTraffic_filing (tr : Traffic) :
    (filing opens).Allows (handleInboundTraffic tr) := by
  refine .bind (forward_allows _) fun sent => .ite (.pure _) (.gets_bind fun r => .ite ?_ ?_)
  · refine .bind (.bind (draw_allows _) fun _ => modifyPath_filing _) fun _ => ?_
    unfold handleSessionBytes
    split
    · exact .pure _
    · refine .bind (draw_allows _) fun t => .ite (.gets_bind fun r' => ?_)
        (.ite (onTraffic_filing hopens _ _ _) (.pure _))
      split
      · exact .pure _
      · exact onInit_filing _ _ _ _
  · exact handleBroken_filing netSend_filing _

end Open

/-- A frame files payloads only if it carries traffic. -/
theorem dispatchFrame_filing {ftype : FrameType} (hopens : ftype = .traffic → opens)
    (conn : LinkId) (payload : Bytes) :
    (filing opens).Allows (dispatchFrame conn ftype payload) := by
  have hsend : ∀ dest b, (filing opens).Allows (netSend dest b) := netSend_filing
  refine .gets_bind fun ls => ?_
  split
  · exact .pure _
  · rename_i peer _
    refine .bind ?_ fun _ => .ite (.pure _) (keepaliveIfIdle_allows _)
    exact handleFrame_beside _ _ _ (handleLookup_filing hsend _) (handleNotify_filing hsend)
      (handleBroken_filing hsend) fun h => handleInboundTraffic_filing (hopens h)

/-! ## The driver -/

theorem writeConn_filing (id : LinkId) (ftype : FrameType) (payload : Bytes) :
    (filing opens).Allows (writeConn id ftype payload) :=
  .bind (writeFrame_allows (records_filing _) _ _) fun _ => .ite (.pure _) (exit_beside _)

theorem connect_filing (peer : Key) (prio : UInt8) (kept : Bool) :
    (filing opens).Allows (connect peer prio kept) := by
  have hkeep : ∀ f : World → World, (∀ w, (f w).router.inbox = w.router.inbox) →
      (∀ w, (f w).router.protoInbox = w.router.protoInbox) →
      (filing opens).Allows (modify f : RouterM Unit) := fun f hinbox hproto =>
    .modify fun w _ => .same (hinbox w) (hproto w)
  refine .bind (.gets_bind fun _ => .bind (.modify fun _ _ => .same rfl rfl) fun _ => .pure _)
    fun id => .bind ?_ fun _ => .ite (.bind (draw_allows _) fun _ =>
      .modify fun _ _ => .same rfl rfl) (.pure _)
  refine .gets_bind fun r => .bind (.gets_bind fun _ => ?_) fun port =>
    .bind (modifyTree_beside _) fun _ => .bind (.gets_bind fun _ => ?_) fun req =>
      .bind (.bind (modifyTree_beside _) fun _ => modifyBloom_beside _) fun _ => ?_
  · split
    · exact .pure _
    · exact .bind (modifyTree_beside _) fun _ => .pure _
  · split
    · exact .pure _
    · exact newReq_beside
  · refine .bind (.gets_bind fun _ => ?_) fun _ => .bind (writeConn_filing _ _ _) fun _ =>
      .ite (.gets_bind fun _ => .bind (draw_allows _) fun keys => .forEach fun k _ => ?_) (.pure _)
    · split
      · exact writeConn_filing _ _ _
      · exact .bind (lift_beside _) fun _ => writeConn_filing _ _ _
    · split
      · exact .pure _
      · exact writeConn_filing _ _ _

theorem sendOrResolve_filing (via : LinkId) (dest : Address) (payload : Bytes) :
    (filing opens).Allows (sendOrResolve via dest payload) := by
  refine .gets_bind fun ls => .ite (exit_beside _) (.bind (.gets_bind fun _ => ?_) fun key => ?_)
  · exact .bind (draw_allows _) fun _ => .bind (draw_allows _) fun _ => .pure _
  · split
    · exact sessionSend_filing netSend_filing _ _
    · exact holdForLookup_filing netSend_filing _ _

theorem maintain_filing : (filing opens).Allows maintain := by
  refine .bind expireTree_beside fun _ => .bind fix_beside fun _ =>
    .bind sendAnnounces_beside fun _ => .bind bloomMaintenance_beside fun _ => .bind ?_ fun _ => ?_
  · exact .bind (draw_allows _) fun _ => .bind (modifyPath_filing _) fun _ =>
      .gets_bind fun _ => .bind (lose_filing _) fun _ => modifySess_filing _
  · exact .gets_bind fun _ => .bind (draw_allows _) fun _ =>
      .forEach fun k _ => rumorLookup_filing netSend_filing k

theorem sendOutbox_filing : (filing opens).Allows sendOutbox := by
  refine .gets_bind fun items => .bind (.modify fun _ _ => .same rfl rfl) fun _ => ?_
  induction items with
  | nil => exact .pure _
  | cons x rest ih =>
    exact .bind (orLose_filing (sessionSend_filing netSend_filing _ _)) fun _ => ih

/-! ## Serving -/

theorem unlessFatal_filing {m : RouterM Unit} (hm : (filing opens).Allows m) :
    (filing opens).Allows (unlessFatal m) := by
  refine result_beside hm fun sent => ?_
  cases sent with
  | ok => exact .pure _
  | error e => exact .gets_bind fun _ => .ite (exit_beside _) (.pure _)

theorem serveLink_filing (hopens : opens) (id : LinkId) :
    (filing opens).Allows (serveLink id) := by
  refine .bind (.gets_bind fun _ => .ite (draw_allows _) (.pure _)) fun read => ?_
  cases read with
  | frame ftype payload => exact unlessFatal_filing (dispatchFrame_filing (fun _ => hopens) _ _)
  | failed e =>
    exact .bind (disconnect_beside _) fun _ => .gets_bind fun _ => .ite (exit_beside _) (.pure _)
  | quiet => exact .bind (unlessFatal_filing (keepaliveIfIdle_allows _)) fun _ => .pure _

theorem forWhile_filing {α β : Type} {goes : β → Bool} {f : α → RouterM β}
    (h : ∀ a, (filing opens).Allows (f a)) (l : List α) :
    (filing opens).Allows (forWhile goes f l) := by
  induction l with
  | nil => exact .pure _
  | cons a l ih => exact .bind (h a) fun _ => .ite ih (.pure _)

/-- `serve_links` only adds to the inboxes. -/
theorem serveLinks_filing (hopens : opens) (rounds : List Bool) :
    (filing opens).Allows (serveLinks rounds) := by
  refine .bind (.modify fun _ _ => .same rfl rfl) fun _ =>
    .bind (unlessFatal_filing maintain_filing) fun _ => .forEach fun due _ => ?_
  refine .gets_bind fun _ => .ite (.pure _)
    (.bind (unlessFatal_filing sendOutbox_filing) fun _ => ?_)
  refine .bind (.ite (unlessFatal_filing maintain_filing) (.pure _)) fun _ => .gets_bind fun _ => ?_
  exact forWhile_filing (serveLink_filing hopens) _

end

end Roots

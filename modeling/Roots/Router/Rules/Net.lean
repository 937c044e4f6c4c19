import Roots.Router.Rules.Tree

/-!
# Roots.Router.Rules.Net

The rules for sessions and paths. Two contexts need care. A method that encrypts to a
key takes the assumption that the key is a point. And `net_send`, in which the recursion
is cut off, comes in two strengths: what a handler of a frame gets is allowed everywhere,
while the one below an accepted notify is only used where the path to its destination is
known (`Sends`), which is the reason why the recursion ends.
-/

namespace Roots

open Prog RouterM Wire

variable [Crypto] {S : Scope} {strict : Prop}

/-! ## Sessions -/

theorem takeInitSeq_allows : (rules S strict).Allows takeInitSeq :=
  .bind (draw_allows _) fun _ => .gets_bind fun _ =>
    .bind (.modify fun _ _ => .initSeq _) fun _ => .pure _

/-- A key that is a point passes the `expect` of `encrypt_msg`. -/
theorem encryptInit_allows {dest : Key} (hdest : strict → (edToCurvePub dest).isSome)
    (init : SessionInit) (msgType : UInt8) :
    (rules S strict).Allows (encryptInit init msgType dest) := by
  refine .gets_bind fun r => .bind (draw_allows _) fun eph => ?_
  split
  · exact .pure _
  · rename_i hnone
    refine .exit fun _ hbad => ?_
    have hsome := hdest hbad.1
    rw [← SessionInit.encryptMsg_isSome, hnone] at hsome
    cases hsome

/-- A session that has counted to the end may abort. -/
theorem not_bad_of_worn {w : World} {k : Key} {s : Session} {t : Instant}
    (hlookup : w.router.sess.sessions.lookup k = some (s, t)) (hlast : s.localKeySeq + 1 = 0) :
    ¬ (rules S strict).bad .panic w :=
  fun hbad => hbad.2.2 rfl ⟨k, s, t, hlookup, hlast⟩

theorem encryptInit_run (init : SessionInit) (msgType : UInt8) (dest : Key) (w : World) :
    encryptInit init msgType dest w =
      (match init.encryptMsg msgType w.router.key dest (w.env.boxKey w.tick) with
        | some enc => .ok enc
        | none => .error .panic, { w with tick := w.tick + 1 }) := by
  change (match init.encryptMsg msgType w.router.key dest (w.env.boxKey w.tick) with
    | some enc => pure enc
    | none => exit .panic : RouterM Bytes) { w with tick := w.tick + 1 } = _
  cases init.encryptMsg msgType w.router.key dest (w.env.boxKey w.tick) <;> rfl

theorem encryptInit_path {init : SessionInit} {msgType : UInt8} {dest : Key} {w w' : World}
    {enc : Bytes} (h : encryptInit init msgType dest w = (.ok enc, w')) :
    w'.router.path = w.router.path := by
  rw [encryptInit_run] at h
  obtain ⟨_, rfl⟩ := Prod.mk.inj h
  rfl

/-- `net_send` may be used for a key in the states with a path table. -/
def SendsFrom (S : Scope) (strict : Prop) (netSend : NetSend) (dest : Key) (p : PathState) :
    Prop :=
  ∀ b w, w.router.path = p → Obeys (rules S strict) (netSend dest b) w

theorem mem_inHand {dest : Key} {held : Option HeldBuf} {x : Key × Payload} :
    x ∈ inHand dest held ↔ x.1 = dest ∧ ∃ h kind, held = some h ∧ h.data = some (kind, x.2) := by
  obtain ⟨k, p⟩ := x
  cases held with
  | none => simp [inHand]
  | some h =>
    simp only [inHand, Option.bind_some, Option.mem_toList, Option.map_eq_some_iff, Prod.exists,
      Prod.mk.injEq, Option.some.injEq]
    constructor
    · rintro ⟨kind, p', hdata, rfl, rfl⟩
      exact ⟨rfl, h, kind, rfl, hdata⟩
    · rintro ⟨rfl, _, kind, rfl, hdata⟩
      exact ⟨kind, p, hdata, rfl, rfl⟩

theorem lose_allows (items : List (Key × Payload)) : (rules S strict).Allows (lose items) := by
  refine .modify fun _ _ => .notes _ fun e he => ?_
  obtain ⟨x, -, rfl⟩ := List.mem_map.mp he
  exact ⟨rfl, trivial, nofun⟩

theorem orLose_obeys {items : List (Key × Payload)} {m : RouterM Unit} {w : World}
    (hm : Obeys (rules S strict) m w) : Obeys (rules S strict) (orLose items m) w :=
  result_bind_obeys hm (fun _ _ _ => .pure _) fun _ w' hnot _ =>
    .bind (lose_allows items w') fun _ w'' _ => refail_allows hnot w''

section Send

variable {netSend : NetSend} {dest : Key} {w : World}
  (hsend : SendsFrom S strict netSend dest w.router.path)

include hsend

/-- A session that encrypts moves on, and what could not be sent is kept. -/
theorem sessionSendInner_obeys {kind : UInt8} {msg : Payload} (hpass : S.passes dest msg)
    (hseal : S.seals kind msg) :
    Obeys (rules S strict) (sessionSendInner netSend dest kind msg) w := by
  refine .gets_bind ?_
  split
  · exact .pure _
  · rename_i s t hlookup
    refine draw_bind_obeys (draw_bind_obeys ?_)
    refine .modify_bind
      (fun _ => .note (.sealed dest (kind :: msg.bytes) msg) rfl ⟨kind, rfl, hseal⟩ nofun) ?_
    refine checked_bind_obeys (fun sealed hsealed => ?_) fun hnone _ => ?_
    rotate_left
    · exact not_bad_of_worn hlookup (s.last_of_encryptChecked hnone)
    cases s.eq_of_encryptChecked hsealed
    refine .modify_bind (fun _ => .encrypt dest s t _ _ _ hlookup) ?_
    refine result_bind_obeys (hsend _ _ rfl) (fun _ _ _ => ?_) fun e _ hnot _ => ?_
    · exact .modify fun _ => .note (.carried dest msg) rfl trivial nofun
    · exact .modify_bind (fun _ => .resend dest msg hpass) (refail_allows hnot _)

variable (hdest : strict → (edToCurvePub dest).isSome)

include hdest

theorem sessionSendKind_obeys {kind : UInt8} {msg : Payload} (hpass : S.passes dest msg)
    (hseal : S.seals kind msg) :
    Obeys (rules S strict) (sessionSendKind netSend dest kind msg) w := by
  refine .gets_bind (.ite (fun _ => sessionSendInner_obeys hsend hpass hseal) fun _ => ?_)
  refine draw_bind_obeys (.bind (takeInitSeq_allows _) fun seq w' hseq => ?_)
  cases hseq
  refine draw_bind_obeys (draw_bind_obeys ?_)
  refine .modify_bind (fun _ => .notes _ fun e he => ?_) (.modify_bind (fun _ => .buf dest _ ?_ ?_) ?_)
  · obtain ⟨x, -, rfl⟩ := List.mem_map.mp he
    exact ⟨rfl, trivial, nofun⟩
  · rintro kind' p hdata
    cases hdata
    exact ⟨hpass, hseal⟩
  · intro old kind' p hlookup hdata
    refine List.mem_append.mpr (.inr (List.mem_map.mpr ⟨(dest, p), ?_, rfl⟩))
    exact mem_inHand.mpr ⟨rfl, old, kind', hlookup, hdata⟩
  · refine .bind (encryptInit_allows hdest _ _ _) fun enc w' henc => hsend enc w' ?_
    have hpath := encryptInit_path henc
    exact hpath

theorem sessionSend_obeys {msg : Payload} (hpass : S.passes dest msg)
    (hseal : S.seals packetTypeTraffic msg) :
    Obeys (rules S strict) (sessionSend netSend dest msg) w := by
  refine .modify_bind (fun _ => .note (.passed dest msg) rfl hpass nofun) ?_
  exact sessionSendKind_obeys (w := { w with events := w.events ++ [.passed dest msg] }) hsend
    hdest hpass hseal

theorem protoSend_obeys (payload : Bytes) :
    Obeys (rules S strict) (protoSend netSend dest payload) w :=
  sessionSendKind_obeys hsend hdest (S.passes_of_none rfl) (S.seals_kind ⟨payload, .proto⟩)

end Send

section Receive

variable {netSend : NetSend} (hsend : ∀ dest b, (rules S strict).Allows (netSend dest b))

theorem pushProto_allows (src : Key) (payload : Bytes) :
    (rules S strict).Allows (pushProto src payload) := .modify fun _ _ => .protoInbox _

include hsend

theorem sendsFrom_of_allows (dest : Key) (p : PathState) : SendsFrom S strict netSend dest p :=
  fun b w _ => hsend dest b w

variable {src : Key} (hsrc : strict → (edToCurvePub src).isSome)

include hsrc

theorem handleDebugBytes_allows (payload : Bytes) :
    (rules S strict).Allows (handleDebugBytes netSend src payload) := by
  have hproto : ∀ b, (rules S strict).Allows (protoSend netSend src b) := fun b _ =>
    protoSend_obeys (sendsFrom_of_allows hsend _ _) hsrc b
  refine .gets_bind fun r => ?_
  split
  · exact .pure _
  · refine .ite (hproto _) (.ite (hproto _) (.ite (hproto _) (.ite ?_ (.pure _))))
    exact pushProto_allows _ _

theorem handleProtoBytes_allows (payload : Bytes) :
    (rules S strict).Allows (handleProtoBytes netSend src payload) := by
  refine .gets_bind fun r => ?_
  split
  · exact .pure _
  · refine .ite ?_ (.ite (pushProto_allows _ _) (.ite ?_ (.pure _)))
    · exact fun _ => protoSend_obeys (sendsFrom_of_allows hsend _ _) hsrc _
    · exact handleDebugBytes_allows hsend hsrc _

theorem sendAck_allows (ack : Option SessionInit) :
    (rules S strict).Allows (sendAck netSend src ack) := by
  cases ack with
  | none => exact .pure _
  | some ack => exact .bind (encryptInit_allows hsrc _ _) fun enc => hsend src enc

/-- The payload that waited behind an init is one that may go to its key. -/
theorem openSession_allows (hdrops : S.drops) (hvalid : Crypto.validKey src = true)
    (init : SessionInit) (t : Instant) :
    (rules S strict).Allows (openSession netSend src init t) := by
  refine fun w => .of_inv fun hw => .gets_bind (draw_bind_obeys (draw_bind_obeys ?_))
  refine draw_bind_obeys (.modify_walk_bind (fun _ => ?_) ?_)
  · refine .tail (.single (.bufs hdrops (w.router.sess.bufs.erase src) fun k held hlookup => ?_))
      (.session hdrops src _ t hvalid)
    rw [Assoc.lookup_erase_ite] at hlookup
    split at hlookup
    · cases hlookup
    · exact hlookup
  · refine .bind (takeInitSeq_allows _) fun seq w' hseq => draw_bind_obeys ?_
    cases hseq
    refine checked_bind_obeys (fun handled _ => ?_) fun hnone _ => ?_
    rotate_left
    · exact not_bad_of_worn (AList.lookup_insert _) (Session.last_of_handleInitChecked hnone)
    refine .modify_bind (fun _ => .session hdrops src _ t hvalid) ?_
    refine .bind (orLose_obeys (sendAck_allows hsend hsrc _ _)) fun _ w' _ => ?_
    split
    · exact .pure _
    · rename_i kind payload hdata
      obtain ⟨held, hheld, hdata⟩ := Option.bind_eq_some_iff.mp hdata
      obtain ⟨hpass, hseal⟩ := hw.bufs src held hheld kind payload hdata
      exact sessionSendInner_obeys (sendsFrom_of_allows hsend _ _) hpass hseal

omit hsend hsrc in
/-- An update that does not fit leaves a session that has counted to the end. -/
theorem abortUpdate_allows (hdrops : S.drops) (hvalid : Crypto.validKey src = true) {s : Session}
    (hlast : s.localKeySeq + 1 = 0) (updated : Session) (t : Instant) :
    (rules S strict).Allows (abortUpdate src s updated t) := by
  refine fun w => .modify_bind (fun _ => .session hdrops src _ t hvalid) (.exit fun _ => ?_)
  exact not_bad_of_worn (AList.lookup_insert _) hlast

theorem onInit_allows (hdrops : S.drops) (hvalid : Crypto.validKey src = true) (isAck : Bool)
    (init : SessionInit) (t : Instant) : (rules S strict).Allows (onInit netSend src isAck init t) := by
  refine .gets_bind fun r => ?_
  split
  · exact openSession_allows hsend hsrc hdrops hvalid init t
  · rename_i s _ _
    refine .ite (.bind (draw_allows _) fun keys => ?_) ?_
    · split
      · exact .modify fun _ _ => .session hdrops src _ t hvalid
      · exact abortUpdate_allows hdrops hvalid (s.last_of_handleAckChecked ‹_›) _ t
    · refine .bind takeInitSeq_allows fun seq => .bind (draw_allows _) fun keys => ?_
      split
      · exact .bind (.modify fun _ _ => .session hdrops src _ t hvalid) fun _ =>
          sendAck_allows hsend hsrc _
      · exact abortUpdate_allows hdrops hvalid (s.last_of_handleInitChecked ‹_›) _ t

/-- A payload a session opened is handed on. -/
theorem deliver_obeys (hdelivers : S.delivers) {w : World} {s : Session} {ct payload : Bytes}
    {keys : BoxKeys} {t : Instant} (active : Instant)
    (hsession : w.router.sess.sessions.lookup src = some ((s.decrypt ct keys t).1, active))
    (hopen : (s.decrypt ct keys t).2 = some payload) :
    Obeys (rules S strict) (deliver netSend src payload) w := by
  cases payload with
  | nil => exact .pure _
  | cons kind payload =>
    refine .ite (fun hkind => ?_) fun _ => .ite (fun _ => ?_) fun _ => .pure _
    · subst hkind
      exact .modify fun _ => .deliver hdelivers src payload ⟨s, ct, keys, t, active, hsession, hopen⟩
    · exact handleProtoBytes_allows hsend hsrc payload _

end Receive

/-- The node cannot deal with traffic from a source: without a session, the source is no point
and no init can be encrypted for it; with one, a sum over the header does not fit. -/
def World.Chokes (w : World) (src : Key) (data : Bytes) : Prop :=
  match w.router.sess.sessions.lookup src with
  | none => edToCurvePub src = none
  | some (s, _) => s.headerFull data = true

section Bytes

variable {netSend : NetSend} (hsend : ∀ dest b, (rules S strict).Allows (netSend dest b))
  (law : strict → PointCrypto)

include hsend law

/-- **The two aborts there are**: traffic from a key without a session is answered with an
init to that key, whoever it is, and the header of one with a session is added to. -/
theorem onTraffic_obeys (hdrops : S.drops) (hdelivers : S.delivers) {w : World} {src : Key}
    (data : Bytes) (t : Instant) (hsrc : strict → ¬ w.Chokes src data) :
    Obeys (rules S strict) (onTraffic netSend src data t) w := by
  refine .of_inv fun hw => .bind (takeInitSeq_allows w) fun seq w' hseq => ?_
  cases hseq
  refine .gets_bind ?_
  split
  · rename_i s t₀ hlookup
    have hvalid := hw.valid src (Assoc.mem_iff_lookup.mpr ⟨_, hlookup⟩)
    have hpoint : strict → (edToCurvePub src).isSome := fun h => law h src hvalid
    refine draw_bind_obeys (draw_bind_obeys (checked_bind_obeys (fun opened hopened => ?_) ?_))
    · cases s.eq_of_decryptChecked hopened
      split
      · rename_i s' payload hopen
        refine .modify_bind (fun _ => .session hdrops src _ t hvalid) ?_
        refine deliver_obeys hsend hpoint hdelivers t ?_ (congrArg Prod.snd hopen)
        rw [hopen]
        exact AList.lookup_insert _
      · exact .bind (encryptInit_allows hpoint _ _ _) fun enc w' _ => hsend src enc w'
    · intro hnone _ hbad
      rcases s.last_of_decryptChecked hnone with hfull | hlast
      · refine hsrc hbad.1 ?_
        rw [World.Chokes, hlookup]
        exact hfull
      · exact (not_bad_of_worn hlookup hlast : ¬ (rules S strict).bad .panic _) hbad
  · rename_i hlookup
    have hpoint : strict → (edToCurvePub src).isSome := fun h => by
      rw [← Option.ne_none_iff_isSome]
      intro hnone
      refine hsrc h ?_
      rw [World.Chokes, hlookup]
      exact hnone
    refine draw_bind_obeys (draw_bind_obeys (.bind (takeInitSeq_allows _) fun _ w' _ => ?_))
    exact .bind (encryptInit_allows hpoint _ _ _) fun enc w' _ => hsend src enc w'

theorem handleSessionBytes_obeys (hdrops : S.drops) (hdelivers : S.delivers) {w : World}
    {src : Key} {data : Bytes}
    (hsrc : strict → data.head? = some sessionTypeTraffic → ¬ w.Chokes src data) :
    Obeys (rules S strict) (handleSessionBytes netSend src data) w := by
  unfold handleSessionBytes
  split
  · exact .pure _
  · rename_i kind hkind
    refine draw_bind_obeys (.ite (fun _ => .gets_bind ?_) fun _ => .ite (fun htraffic => ?_) ?_)
    · split
      · exact .pure _
      · rename_i init hinit
        have hvalid := SessionInit.validKey_of_decryptMsg hinit
        exact onInit_allows hsend (fun h => law h src hvalid) hdrops hvalid _ _ _ _
    · subst htraffic
      exact onTraffic_obeys hsend law hdrops hdelivers _ _ fun h => hsrc h hkind
    · exact fun _ => .pure _

end Bytes

/-! ## Paths -/

section Rumors

variable {w : World}

/-- A rumor is opened without a payload. -/
theorem Step.openRumor (dest : Key) (t : Instant) :
    Step S w { w with router.path := w.router.path.openRumor dest t } := by
  refine .rumors _ (fun x r p hlookup hpending => ?_) (.inr fun x => Assoc.mem_orInsert_of_mem)
  rw [Assoc.lookup_orInsert] at hlookup
  split at hlookup
  · cases hx : w.router.path.rumors.lookup x with
    | none =>
      rw [hx] at hlookup
      cases hlookup
      cases hpending
    | some r₀ =>
      rw [hx] at hlookup
      cases hlookup
      exact ⟨_, hx, hpending, rfl⟩
  · exact ⟨r, hlookup, hpending, rfl⟩

omit [Crypto] in
/-- What a rumor that is changed holds afterwards, if anything. -/
theorem kept_modifyRumor {p : PathState} {x : Key} {f : RumorEntry → RumorEntry} {y : Key}
    {r : RumorEntry} {payload : Payload} (hlookup : (p.modifyRumor x f).rumors.lookup y = some r)
    (hpending : r.pending = some payload) :
    Kept p.rumors y r payload ∨ ∃ r₀, y = x ∧ p.rumors.lookup y = some r₀ ∧ r = f r₀ := by
  change (p.rumors.modify x f).lookup y = some r at hlookup
  rw [Assoc.lookup_modify] at hlookup
  split at hlookup
  · obtain ⟨r₀, hr₀, rfl⟩ := Option.map_eq_some_iff.mp hlookup
    exact .inr ⟨r₀, ‹_›, hr₀, rfl⟩
  · exact .inl ⟨r, hlookup, hpending, rfl⟩

/-- A rumor is changed, but not what it holds. -/
theorem Step.modifyRumor (x : Key) {f : RumorEntry → RumorEntry}
    (hf : ∀ r, (f r).pending = r.pending ∧ (f r).pendingIsApp = r.pendingIsApp) :
    Step S w { w with router.path := w.router.path.modifyRumor x f } := by
  refine .rumors _ (fun y r p hlookup hpending => ?_) (.inr fun y => Assoc.mem_modify.mpr)
  rcases kept_modifyRumor hlookup hpending with hkept | ⟨r₀, -, hr₀, rfl⟩
  · exact hkept
  · exact ⟨r₀, hr₀, (hf r₀).1 ▸ hpending, (hf r₀).2.symm⟩

/-- A path entry is changed, but not the path it has. -/
theorem Step.modifyEntry (k : Key) {f : PathEntry → PathEntry}
    (hf : ∀ e, (f e).path = e.path ∧ (f e).seq = e.seq) :
    Step S w { w with router.path := w.router.path.modifyEntry k f } := by
  refine .entries _ (fun k' e hlookup => ?_) (.inr fun k' => Assoc.mem_modify.mpr)
  rw [Assoc.lookup_modify] at hlookup
  split at hlookup
  · obtain ⟨e₀, he₀, rfl⟩ := Option.map_eq_some_iff.mp hlookup
    exact ⟨e₀, he₀, (hf e₀).1.symm, (hf e₀).2.symm⟩
  · exact ⟨e, hlookup, rfl, rfl⟩

end Rumors

omit [Crypto] in
theorem PathState.workingPath_learn (p : PathState) (notify : PathNotify) (t : Instant) :
    ((p.learn notify t).workingPath notify.source).isSome := by
  simp [PathState.workingPath, PathState.learn, Option.filter]

/-- `net_send` may be used where the path to the destination is known. -/
def Sends (S : Scope) (strict : Prop) (netSend : NetSend) : Prop :=
  ∀ dest b w, (strict → (w.router.path.workingPath dest).isSome) →
    Obeys (rules S strict) (netSend dest b) w

/-- A notify is taken in: it has no next hop, it is for this node, and it is news. -/
structure World.Accepts (w : World) (notify : PathNotify) : Prop where
  arrived : (w.router.tree.greedyNext w.links w.router.pubkey notify.path notify.watermark).1 = none
  mine : notify.dest = w.router.pubkey
  news : w.router.path.isNews notify = true

section Notify

variable {netSend : NetSend} (hsend : Sends S strict netSend) (law : strict → PointCrypto)

include hsend

theorem flush_obeys {w : World} {source : Key} (hpoint : strict → (edToCurvePub source).isSome)
    (hpath : strict → (w.router.path.workingPath source).isSome)
    (hheld : ∀ p, w.router.path.heldFor source = some (p, true) → S.passes source p) :
    Obeys (rules S strict) (flush netSend source) w := by
  refine .of_inv fun hw => .gets_bind ?_
  split
  · exact .pure _
  · rename_i payload isApp hsome
    refine .modify_bind (fun _ => .release source payload isApp hsome) ?_
    refine .ite (fun happ => ?_) fun _ => hsend _ _ _ hpath
    subst happ
    obtain ⟨r, hlookup, hpending, -⟩ := PathState.heldFor_eq_some.mp hsome
    refine sessionSend_obeys (fun b w' heq => hsend _ b w' ?_) hpoint (hheld payload hsome)
      (S.seals_traffic (hw.held _ r payload hlookup hpending))
    rw [heq]
    exact hpath

include law

/-- A notify that is accepted leaves a path to its source behind before anything is
sent to it. -/
theorem acceptNotify_obeys {w : World} {notify : PathNotify}
    (hlearns : w.router.path.isNews notify = true → S.learns notify)
    (hheld : w.router.path.isNews notify = true →
      ∀ p, w.router.path.heldFor notify.source = some (p, true) → S.passes notify.source p) :
    Obeys (rules S strict) (acceptNotify netSend notify) w := by
  refine .gets_bind (.ite (fun hnews => ?_) fun _ => .pure _)
  have hcheck : notify.check = true := (Bool.and_eq_true_iff.mp hnews).2
  have hvalid : Crypto.validKey notify.source = true := (Bool.and_eq_true_iff.mp hcheck).1
  refine draw_bind_obeys (.modify_bind (fun _ => .learn notify _ hnews (hlearns hnews)) ?_)
  refine flush_obeys hsend (fun h => law h _ hvalid) (fun _ => ?_) (hheld hnews)
  exact PathState.workingPath_learn _ _ _

theorem handleNotify_obeys {w : World} {notify : PathNotify}
    (hlearns : w.Accepts notify → S.learns notify)
    (hheld : w.Accepts notify →
      ∀ p, w.router.path.heldFor notify.source = some (p, true) → S.passes notify.source p) :
    Obeys (rules S strict) (handleNotify netSend notify) w := by
  refine .gets_bind ?_
  obtain ⟨⟨next, watermark⟩, hnext⟩ : ∃ hop, w.router.tree.greedyNext w.links w.router.pubkey
    notify.path notify.watermark = hop := ⟨_, rfl⟩
  rw [hnext]
  cases next with
  | some id => exact writeVia_allows (Writes.wrote (by decide) (by decide)) _ _ w
  | none =>
    refine .gets_bind (.ite (fun _ => .pure _) fun hmine => ?_)
    have haccepts : w.router.path.isNews notify = true → w.Accepts notify := fun hnews =>
      ⟨congrArg Prod.fst hnext, not_not.mp hmine, hnews⟩
    exact acceptNotify_obeys hsend law (fun hnews => hlearns (haccepts hnews)) fun hnews =>
      hheld (haccepts hnews)

/-- An answer of this node to itself releases only what this node may get. -/
theorem handleLookup_allows (src : Key) (lookup : PathLookup) :
    (rules S strict).Allows (handleLookup netSend src lookup) := by
  refine .bind (multicast_allows (R := rules S strict) (fun hw => Inv.linked hw)
    (records_stepping (by decide)) _ _ _) fun _ w => .of_inv fun hw => .gets_bind ?_
  refine .ite (fun _ => .pure _) fun _ => draw_bind_obeys ?_
  refine .modify_bind (fun _ => .notify _) (handleNotify_obeys hsend law ?_ fun _ p hp => ?_)
  · exact fun _ => S.learns_own hw.own
  · exact hw.slots _ hw.own p hp

theorem sendLookup_allows (dest : Key) : (rules S strict).Allows (sendLookup netSend dest) :=
  .gets_bind fun _ => handleLookup_allows hsend law _ _

theorem rumorLookup_allows (dest : Key) : (rules S strict).Allows (rumorLookup netSend dest) := by
  refine .bind (draw_allows _) fun t => .gets_bind fun r => .ite (.pure _) ?_
  refine .bind (fun w => .modify_walk fun _ => ?_) fun _ => sendLookup_allows hsend law dest
  exact .tail (.single (.openRumor dest t)) (.modifyRumor _ fun _ => ⟨rfl, rfl⟩)

/-- What is held for an address may go to every key that can release it. -/
theorem holdForLookup_allows {a : Address} {b : Bytes}
    (hpass : ∀ k, S.flush k → xkey k = xkey (lookupKeyForAddr a) → S.passes k ⟨b, .addressed a⟩) :
    (rules S strict).Allows (holdForLookup netSend (lookupKeyForAddr a) ⟨b, .addressed a⟩) := by
  refine .bind (draw_allows _) fun t => .gets_bind fun r => .bind (fun w => ?_) fun _ =>
    .ite (.pure _) (rumorLookup_allows hsend law _)
  refine .modify_walk fun _ => .tail (.single (.openRumor (lookupKeyForAddr a) t))
    (.hold a b _ hpass (fun x r p hlookup hpending => ?_) fun x => Assoc.mem_modify.mpr)
  refine (kept_modifyRumor hlookup hpending).imp id ?_
  rintro ⟨r₀, hx, -, rfl⟩
  cases hpending
  exact ⟨hx, rfl, rfl⟩

theorem markBroken_allows (dest : Key) : (rules S strict).Allows (markBroken netSend dest) := by
  refine .gets_bind fun r => .ite (.bind ?_ fun _ => rumorLookup_allows hsend law dest) (.pure _)
  exact .modify fun _ _ => .modifyEntry dest fun _ => ⟨rfl, rfl⟩

theorem handleBroken_allows (broken : PathBroken) :
    (rules S strict).Allows (handleBroken netSend broken) :=
  handleReport_allows (markBroken_allows hsend law _)

end Notify

/-! ## Traffic -/

theorem forward_allows {R : Rules World Exit} [Writes R] (tr : Traffic) :
    R.Allows (forward tr) := by
  refine .gets_bind fun ⟨next, watermark⟩ => ?_
  cases next with
  | none => exact .pure _
  | some id =>
    simp only [Traffic.encode_eq]
    exact .bind (lift_allows _) fun _ =>
      .bind (writeVia_allows (Writes.wrote (by decide) (by decide)) _ _) fun _ => .pure _

theorem routeTraffic_allows {R : Rules World Exit} [Writes R] (dest : Key) (path : List UInt64)
    (payload : Bytes) : R.Allows (routeTraffic dest path payload) :=
  .gets_bind fun _ => .bind (forward_allows _) fun _ => .pure _

section NetSend

variable (law : strict → PointCrypto)

include law

omit law in
theorem stash_allows (dest : Key) (payload : Bytes) :
    (rules S strict).Allows (stash dest payload) := by
  refine .modify fun w _ => .stash dest payload _ _ (fun x r p hlookup hpending => ?_)
    fun x => Assoc.mem_modify.mpr
  refine (kept_modifyRumor hlookup hpending).imp id ?_
  rintro ⟨r₀, rfl, hr₀, rfl⟩
  cases hpending
  exact ⟨rfl, by rw [hr₀]; rfl⟩

theorem pathfinderSend_allows {netSend : NetSend} (hsend : Sends S strict netSend) (dest : Key)
    (payload : Bytes) : (rules S strict).Allows (pathfinderSend netSend dest payload) := by
  refine .gets_bind fun r => ?_
  split
  · exact routeTraffic_allows _ _ _
  · exact .bind (rumorLookup_allows hsend law dest) fun _ => stash_allows dest payload

omit law in
theorem sends_netSendDepth_zero (h : ¬ strict) : Sends S strict (netSendDepth 0) :=
  fun _ _ _ _ => .exit fun _ hbad => h hbad.1

/-- With a path to the destination, `net_send` does not look anything up. -/
theorem sends_netSendDepth_one : Sends S strict (netSendDepth 1) := by
  intro dest payload w hpath
  by_cases h : strict
  · obtain ⟨path, hpath⟩ := Option.isSome_iff_exists.mp (hpath h)
    refine .gets_bind ?_
    rw [hpath]
    exact routeTraffic_allows _ _ _ w
  · exact pathfinderSend_allows law (sends_netSendDepth_zero h) dest payload w

/-- **The recursion of `net_send` ends** within the depth it has. -/
theorem netSend_allows (dest : Key) (payload : Bytes) :
    (rules S strict).Allows (netSend dest payload) :=
  pathfinderSend_allows law (sends_netSendDepth_one law) dest payload

theorem sends_netSend : Sends S strict netSend := fun dest payload w _ =>
  netSend_allows law dest payload w

end NetSend

theorem refreshPath_allows (source : Key) : (rules S strict).Allows (refreshPath source) := by
  refine .bind (draw_allows _) fun t => .modify fun _ _ => .modifyEntry source fun e => ?_
  by_cases h : e.broken <;> simp [h]

/-- A packet is not sent on if it has no next hop, and then nothing changes. -/
theorem forward_eq_false {tr : Traffic} {w w' : World} :
    forward tr w = (.ok false, w') ↔
      w = w' ∧ (w.router.tree.greedyNext w.links w.router.pubkey tr.path tr.watermark).1 = none := by
  unfold forward greedy
  rw [Prog.gets_bind]
  obtain ⟨⟨next, watermark⟩, hnext⟩ : ∃ hop, w.router.tree.greedyNext w.links w.router.pubkey
    tr.path tr.watermark = hop := ⟨_, rfl⟩
  rw [hnext]
  cases next with
  | none => simp
  | some id =>
    simp only [Traffic.encode_eq, reduceCtorEq, and_false, iff_false]
    intro h
    change ((writeVia id .traffic _ >>= fun _ => pure true) : RouterM Bool) w = _ at h
    rw [run_bind] at h
    split at h <;> cases h

/-- A packet of traffic that has arrived at its destination, and that the node cannot deal
with. -/
structure World.Unanswerable (w : World) (tr : Traffic) : Prop where
  arrived : (w.router.tree.greedyNext w.links w.router.pubkey tr.path tr.watermark).1 = none
  mine : tr.dest = w.router.pubkey
  sealed : tr.payload.head? = some sessionTypeTraffic
  chokes : w.Chokes tr.source tr.payload

theorem handleInboundTraffic_obeys (law : strict → PointCrypto) (hdrops : S.drops)
    (hdelivers : S.delivers) {w : World} {tr : Traffic}
    (htr : strict → ¬ w.Unanswerable tr) : Obeys (rules S strict) (handleInboundTraffic tr) w := by
  refine .bind (forward_allows tr w) fun sent w' hsent => .ite (fun _ => .pure _) fun hkept => ?_
  cases (Bool.not_eq_true _).mp hkept
  obtain ⟨rfl, harrived⟩ := forward_eq_false.mp hsent
  refine .gets_bind (.ite (fun hmine => ?_) fun _ => ?_)
  · refine .bind (refreshPath_allows _ _) fun _ w' hrefresh => ?_
    cases hrefresh
    refine handleSessionBytes_obeys (netSend_allows law) law hdrops hdelivers
      fun h hsealed hchokes => ?_
    exact htr h ⟨harrived, hmine, hsealed, hchokes⟩
  · exact handleBroken_allows (sends_netSend law) law _ _

end Roots

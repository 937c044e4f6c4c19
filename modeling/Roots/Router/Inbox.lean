import Roots.Router.Ends
import Roots.Router.Rules.Driver

/-!
# Roots.Router.Inbox

What reaches the inbox of a router. A payload is handed to the application only when a packet of
traffic for this node has come in and the stored session with its source opens it. **An action adds
at most one payload to the inbox, and it is the one that the session makes of the frame**
(`World.act_hands`). No other frame and nothing the owner does adds any.
-/

namespace Roots

open Prog RouterM
open Relation (ReflTransGen)

variable [Crypto] {S : Scope} {w w' : World}

/-! ## What the sessions have delivered -/

omit [Crypto] in
/-- The payload that a delivery put into the inbox. -/
def Event.delivery : Event → Option (Key × Bytes)
  | .delivered k p => some (k, p)
  | _ => none

/-- The payloads for the application so far, with the keys of their sessions. -/
def World.deliveries (w : World) : List (Key × Bytes) := w.events.filterMap Event.delivery

omit [Crypto] in
theorem filterMap_delivery_of_plain {es : List Event} (h : ∀ e ∈ es, e.plain = true) :
    es.filterMap Event.delivery = [] := by
  refine List.filterMap_eq_nil_iff.mpr fun e he => ?_
  have hplain := h e he
  cases e with
  | delivered => cases hplain
  | _ => rfl

theorem World.deliveries_append {es more : List Event} :
    { w with events := es ++ more }.deliveries =
      { w with events := es }.deliveries ++ more.filterMap Event.delivery :=
  List.filterMap_append

/-- The inbox and the record of the deliveries grow by the same payloads. -/
structure Hands (more : List (Key × Bytes)) (w w' : World) : Prop where
  inbox : w'.router.inbox = w.router.inbox ++ more
  deliveries : w'.deliveries = w.deliveries ++ more

theorem Hands.refl (w : World) : Hands [] w w := ⟨(List.append_nil _).symm, (List.append_nil _).symm⟩

theorem Hands.trans {more last : List (Key × Bytes)} {v : World} (h : Hands more w v)
    (h' : Hands last v w') : Hands (more ++ last) w w' where
  inbox := by rw [h'.inbox, h.inbox, List.append_assoc]
  deliveries := by rw [h'.deliveries, h.deliveries, List.append_assoc]

/-! ## Methods that hand nothing on -/

/-- The same context with the inbox left to its owner and nothing delivered. -/
def Scope.silent (S : Scope) : Scope := { S with drains := False, delivers := False }

theorem Step.silent (h : Step S.silent w w') : Hands [] w w' := by
  cases h with
  | drain hdrains => exact hdrains.elim
  | deliver hdelivers => exact hdelivers.elim
  | notes es h =>
    have hnone := filterMap_delivery_of_plain fun e he => (h e he).1
    exact ⟨(List.append_nil _).symm, World.deliveries_append.trans (by rw [hnone])⟩
  | stash | release => exact ⟨(List.append_nil _).symm, World.deliveries_append⟩
  | _ => exact { Hands.refl w with }

theorem Hands.of_walk (h : ReflTransGen (Step S.silent) w w') : Hands [] w w' := by
  induction h with
  | refl => exact .refl w
  | tail _ hstep ih => exact ih.trans hstep.silent

theorem Hands.of_obeys {α : Type} {m : RouterM α} (hw : Inv S w)
    (h : Obeys (rules S.silent False) m w) : Hands [] w (m w).2 :=
  .of_walk (h.walk { hw with })

/-- At most one payload is handed on, and then one with `P`. -/
def HandsOne (P : Key × Bytes → Prop) (w w' : World) : Prop :=
  ∃ x : Option (Key × Bytes), Hands x.toList w w' ∧ ∀ y ∈ x, P y

section HandsOne

variable {P Q : Key × Bytes → Prop} {v : World}

theorem HandsOne.none (h : Hands [] w w') : HandsOne P w w' := ⟨Option.none, h, by simp⟩

theorem HandsOne.imp (h : HandsOne P w w') (hPQ : ∀ y, P y → Q y) : HandsOne Q w w' := by
  obtain ⟨x, hands, hx⟩ := h
  exact ⟨x, hands, fun y hy => hPQ y (hx y hy)⟩

theorem HandsOne.after (h : Hands [] w v) (h' : HandsOne P v w') : HandsOne P w w' := by
  obtain ⟨x, hands, hx⟩ := h'
  exact ⟨x, h.trans hands, hx⟩

theorem HandsOne.before (h : HandsOne P w v) (h' : Hands [] v w') : HandsOne P w w' := by
  obtain ⟨x, hands, hx⟩ := h
  exact ⟨x, List.append_nil x.toList ▸ hands.trans h', hx⟩

variable {α β : Type} {m : RouterM α} {f : α → RouterM β}

/-- What comes first hands nothing on. -/
theorem HandsOne.bind (hm : Hands [] w (m w).2)
    (hf : ∀ a v, m w = (.ok a, v) → HandsOne P v (f a v).2) : HandsOne P w ((m >>= f) w).2 := by
  rw [run_bind]
  obtain ⟨r, hr⟩ : ∃ r, m w = r := ⟨_, rfl⟩
  rw [hr] at hm ⊢
  obtain ⟨e | a, v⟩ := r
  · exact .none hm
  · exact .after hm (hf a v hr)

/-- What comes last hands nothing on. -/
theorem HandsOne.bind_silent (hm : HandsOne P w (m w).2)
    (hf : ∀ a v, m w = (.ok a, v) → Hands [] v (f a v).2) : HandsOne P w ((m >>= f) w).2 := by
  rw [run_bind]
  obtain ⟨r, hr⟩ : ∃ r, m w = r := ⟨_, rfl⟩
  rw [hr] at hm ⊢
  obtain ⟨e | a, v⟩ := r
  · exact hm
  · exact hm.before (hf a v hr)

end HandsOne

/-! ## Traffic for this node -/

/-- The stored session with `src` decrypts the bytes to a payload for the application. -/
def World.Decrypts (w : World) (src : Key) (data p : Bytes) : Prop :=
  ∃ s t keys now, w.router.sess.sessions.lookup src = some (s, t) ∧
    (s.decrypt data keys now).2 = some (packetTypeTraffic :: p)

section Receive

variable (hw : Inv .free w)

include hw

/-- A payload goes to the inbox if its type says so, and nowhere near it otherwise. -/
theorem deliver_hands (src : Key) (payload : Bytes) :
    HandsOne (fun y => y.1 = src ∧ payload = packetTypeTraffic :: y.2) w
      (deliver netSend src payload w).2 := by
  cases payload with
  | nil => exact .none (.refl w)
  | cons kind payload =>
    rw [deliver]
    by_cases hkind : kind = packetTypeTraffic
    · rw [if_pos hkind, hkind]
      exact ⟨some (src, payload), ⟨rfl, World.deliveries_append⟩, by simp⟩
    · rw [if_neg hkind]
      by_cases hproto : kind = packetTypeProto
      · rw [if_pos hproto]
        exact .none (.of_obeys hw (handleProtoBytes_allows (netSend_allows False.elim) False.elim
          payload w))
      · rw [if_neg hproto]
        exact .none (.refl w)

theorem onTraffic_hands (src : Key) (data : Bytes) (t : Instant) :
    HandsOne (fun y => y.1 = src ∧ w.Decrypts src data y.2) w
      (onTraffic netSend src data t w).2 := by
  have hanswer : ∀ (init : SessionInit) {v : World}, Inv .free v →
      Hands [] v ((encryptInit init sessionTypeInit src >>= netSend src) v).2 := by
    intro init v hv
    have hrules : (rules Scope.free.silent False).Allows
        (encryptInit init sessionTypeInit src >>= netSend src) :=
      .bind (encryptInit_allows False.elim _ _) fun enc => netSend_allows False.elim src enc
    exact .of_obeys hv (hrules v)
  cases hlookup : w.router.sess.sessions.lookup src with
  | none =>
    obtain ⟨seq, -, hrun⟩ := onTraffic_of_none netSend hlookup data t
    rw [hrun]
    have hv := hanswer ⟨(freshBox (w.env.boxKey (w.tick + 1))).pub,
      (freshBox (w.env.boxKey (w.tick + 2))).pub, 0, seq⟩
      (v := { w with tick := w.tick + 4, router.sess.initSeq := seq }) { hw with }
    exact .none ⟨hv.inbox, hv.deliveries⟩
  | some x =>
    obtain ⟨s, t₀⟩ := x
    obtain ⟨v, hv, hruns⟩ := onTraffic_of_some netSend hlookup data t
    have hinv : Inv .free v := hv ▸ { hw with }
    have hsame : Hands [] w v := hv ▸ { Hands.refl w with }
    rw [hruns _ rfl]
    cases hopened : s.decryptChecked data (freshBox (w.env.boxKey (w.tick + 1)))
        (w.env.now (w.tick + 2)) with
    | none => exact .none hsame
    | some opened =>
      obtain ⟨s', _ | payload⟩ := opened
      · exact .none (hsame.trans (hanswer _ hinv))
      · -- The session moves on before the payload is handed on.
        have hopen := s.eq_of_decryptChecked hopened
        have hstored : Hands [] w
            { v with router.sess.sessions := v.router.sess.sessions.insert src (s', t) } :=
          ⟨hsame.inbox, hsame.deliveries⟩
        have hvalid := hw.valid src (Assoc.mem_iff_lookup.mpr ⟨_, hlookup⟩)
        refine .after hstored ((deliver_hands (hinv.step (.session trivial src s' t hvalid)) src
          payload).imp ?_)
        rintro y ⟨hsrc, rfl⟩
        exact ⟨hsrc, s, t₀, _, _, hlookup, (congrArg Prod.snd hopen).symm⟩

theorem handleSessionBytes_hands (src : Key) (data : Bytes) :
    HandsOne (fun y => y.1 = src ∧ w.Decrypts src data y.2) w
      (handleSessionBytes netSend src data w).2 := by
  have htick : Hands [] w { w with tick := w.tick + 1 } := { Hands.refl w with }
  unfold handleSessionBytes
  cases data.head? with
  | none => exact .none (.refl w)
  | some kind =>
    dsimp only
    rw [now, draw_bind]
    refine .after htick ?_
    by_cases hinit : kind = sessionTypeInit ∨ kind = sessionTypeAck
    · rw [if_pos hinit, router, Prog.gets_bind]
      cases hdecrypt : SessionInit.decryptMsg (edToCurvePriv w.router.key) src data with
      | none => exact .none (.refl _)
      | some init =>
        have hvalid := SessionInit.validKey_of_decryptMsg hdecrypt
        exact .none (.of_obeys (hw.step .tick) (onInit_allows (netSend_allows False.elim) False.elim
          trivial hvalid _ init _ _))
    · rw [if_neg hinit]
      by_cases htraffic : kind = sessionTypeTraffic
      · rw [if_pos htraffic]
        exact onTraffic_hands (hw.step .tick) src data _
      · rw [if_neg htraffic]
        exact .none (.refl _)

theorem handleInboundTraffic_hands (tr : Traffic) :
    HandsOne (fun y => tr.dest = w.router.pubkey ∧ y.1 = tr.source ∧
      w.Decrypts tr.source tr.payload y.2) w (handleInboundTraffic tr w).2 := by
  refine .bind (.of_obeys hw (forward_allows tr w)) fun sent v hsent => ?_
  cases sent with
  | true => exact .none (.refl v)
  | false =>
    obtain ⟨rfl, -⟩ := forward_eq_false.mp hsent
    rw [if_neg Bool.false_ne_true, router, Prog.gets_bind]
    by_cases hmine : tr.dest = w.router.pubkey
    · rw [if_pos hmine]
      have hrefresh : (rules Scope.free False).Allows (refreshPath tr.source) :=
        refreshPath_allows tr.source
      refine .bind (.of_obeys hw (refreshPath_allows _ w)) fun _ v hv => ?_
      have hinv : Inv .free v := (hrefresh w).inv_of_eq hw hv
      cases hv
      exact (handleSessionBytes_hands hinv tr.source tr.payload).imp fun y hy => ⟨hmine, hy⟩
    · rw [if_neg hmine]
      exact .none (.of_obeys hw (handleBroken_allows (sends_netSend False.elim) False.elim _ w))

end Receive

/-! ## Actions -/

/-- The action is the arrival, on a link that is there, of a packet of traffic for this node from
`y.1` that the stored session with `y.1` decrypts to `y.2`. -/
def World.Receives (w : World) (a : Action) (y : Key × Bytes) : Prop :=
  ∃ conn payload tr, a = .frame conn .traffic payload ∧ conn ∈ w.links.ids ∧
    Traffic.decode payload = .ok tr ∧ tr.dest = w.router.pubkey ∧ tr.source = y.1 ∧
    w.Decrypts y.1 tr.payload y.2

theorem traffic_hands (hw : Inv .free w) (conn : LinkId) (payload : Bytes) :
    HandsOne (w.Receives (.frame conn .traffic payload)) w
      (dispatchFrame conn .traffic payload w).2 := by
  rw [dispatchFrame, links, Prog.gets_bind]
  cases hpeer : w.links.peerOf conn with
  | none => exact .none (.refl w)
  | some peer =>
    have hlive : conn ∈ w.links.ids := LinkSet.peerOf_isSome.mp (by rw [hpeer]; rfl)
    refine .bind_silent ?_ fun _ v hv => ?_
    · cases hdecode : Traffic.decode payload with
      | error e =>
        have hrun : handleFrame conn peer payload .traffic w = (.ok (), w) := by
          cases Traffic.decode_refuses payload e hdecode
          rw [handleFrame, hdecode]
          rfl
        rw [hrun]
        exact .none (.refl w)
      | ok tr =>
        have hrun : handleFrame conn peer payload .traffic w = handleInboundTraffic tr w := by
          rw [handleFrame, hdecode]
          rfl
        rw [hrun]
        refine (handleInboundTraffic_hands hw tr).imp fun y ⟨hmine, hsrc, hopens⟩ => ?_
        exact ⟨conn, payload, tr, rfl, hlive, hdecode, hmine, hsrc.symm, hsrc ▸ hopens⟩
    · exact .of_obeys (inv_handleFrame hw hpeer hv) (keepaliveIfIdle_allows conn v)

omit [Crypto] in
/-- Only a packet of traffic needs a context that delivers. -/
theorem Scope.silent_fits {a : Action} (hkept : a ≠ .drainInbox)
    (htraffic : ∀ conn payload, a ≠ .frame conn .traffic payload) : Scope.free.silent.Fits a := by
  cases a with
  | drainInbox => exact absurd rfl hkept
  | frame conn ftype payload =>
    cases ftype with
    | traffic => exact absurd rfl (htraffic conn payload)
    | announce => exact ⟨trivial, trivial, trivial⟩
    | _ => trivial
  | connect => exact ⟨trivial, trivial, trivial, trivial⟩
  | maintain => exact ⟨trivial, trivial, trivial, trivial, trivial, trivial, trivial, trivial⟩
  | _ => trivial

/-- **What an action adds to the inbox comes from its own frame.** -/
theorem World.act_hands (hw : Inv .free w) {a : Action} (hkept : a ≠ .drainInbox) :
    HandsOne (w.Receives a) w (w.act a) := by
  by_cases htraffic : ∃ conn payload, a = .frame conn .traffic payload
  · obtain ⟨conn, payload, rfl⟩ := htraffic
    exact traffic_hands hw conn payload
  · have hfits := Scope.silent_fits hkept fun conn payload heq => htraffic ⟨conn, payload, heq⟩
    exact .none (.of_obeys hw (a.body_obeys False.elim hfits
      (w.permits_all (fun _ _ => trivial) (fun _ _ => trivial) (fun _ => trivial) a)))

end Roots

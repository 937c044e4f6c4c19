import Roots.Router.Placed
import Roots.Router.Retry
import Roots.Router.Serve

/-!
# Roots.Router.Outbox

What becomes of the payloads that `serve_links` is handed. **Three methods let go of one**: the
outbox loop drops what is left of the vector when a send fails, a session that opens has its held
payload in hand while it sends the ack, and a buffer runs out of time.

These are the `Hazard`s of a call, each with the state before it happens. A call takes off the
places of a payload exactly what its hazards drop (`serveLinks_accounts`), so every queued payload
is accounted for if and only if none of them drops one.
-/

namespace Roots

open Prog RouterM

/-! ## Where payloads are let go -/

section

variable [Crypto]

/-- The method stops with an `Err`. -/
def errs (m : RouterM Unit) (w : World) : Bool := (m w).1 matches .error (.err _)

/-- What may let go of payloads, with the state before it happens. -/
inductive Hazard where
  /-- A payload of the outbox is sent. Others wait behind it. -/
  | send (w : World) (dest : Key) (msg : Payload) (behind : List (Key × Payload))
  /-- A session was opened, and the ack is sent before what was held for its peer. -/
  | ack (w : World) (src : Key) (reply : Option SessionInit) (held : Option HeldBuf)
  /-- Buffers run out of time. -/
  | expiry (w : World)

/-- What is let go. -/
def Hazard.dropped : Hazard → List (Key × Payload)
  | .send w dest msg behind => if errs (sessionSend netSend dest msg) w then behind else []
  | .ack w src reply held => if errs (sendAck netSend src reply) w then inHand src held else []
  | .expiry w => heldPast w.router.sess.bufs (w.env.now w.tick)

/-- The hazards of an outbox that was taken out. -/
def sendHazards : List (Key × Payload) → World → List Hazard
  | [], _ => []
  | (dest, msg) :: rest, w =>
      .send w dest msg rest ::
        onward (sessionSend netSend dest msg w) fun _ w' => sendHazards rest w'

namespace RouterM

/-- `maintain` up to its sweep. -/
def groom : RouterM Unit := do
  expireTree
  fix
  sendAnnounces
  bloomMaintenance

end RouterM

theorem maintain_groom : maintain = groom >>= fun _ => sweep := by
  simp only [maintain, tidy, groom, Prog.bind_assoc]

/-- The hazards of `maintain`. -/
def maintainHazards (w : World) : List Hazard := onward (groom w) fun _ w' => [.expiry w']

/-- The hazards of a session's bytes: a first message opens a session. -/
def sessionHazards (src : Key) (data : Bytes) (w : World) : List Hazard :=
  match data.head? with
  | none => []
  | some kind =>
      if kind = sessionTypeInit ∨ kind = sessionTypeAck then
        match SessionInit.decryptMsg (edToCurvePriv w.router.key) src data with
        | none => []
        | some init =>
            if src ∈ w.router.sess.sessions then []
            else
              onward (openFor src init (w.env.now w.tick) { w with tick := w.tick + 1 })
                fun ack w' => [.ack w' src ack (w.router.sess.bufs.lookup src)]
      else []

/-- The hazards of a packet. -/
def trafficHazards (tr : Traffic) (w : World) : List Hazard :=
  onward (forward tr w) fun sent w₁ =>
    if sent then []
    else if tr.dest = w₁.router.pubkey then
      onward (refreshPath tr.source w₁) fun _ w₂ => sessionHazards tr.source tr.payload w₂
    else []

/-- The hazards of a frame. -/
def frameHazards (conn : LinkId) (ftype : FrameType) (payload : Bytes) (w : World) : List Hazard :=
  match w.links.peerOf conn, ftype, Traffic.decode payload with
  | some _, .traffic, .ok tr => trafficHazards tr w
  | _, _, _ => []

/-- The hazards of a link's turn. -/
def readHazards (conn : LinkId) (w : World) : List Hazard :=
  onward (readFrame conn w) fun r w' =>
    match r with
    | .frame ftype payload => frameHazards conn ftype payload w'
    | _ => []

def roundHazards (due : Bool) (w : World) : List Hazard :=
  if w.links.ids.isEmpty then []
  else
    sendHazards w.outbox { w with outbox := [] } ++
      onward (unlessFatal sendOutbox w) fun _ w₁ =>
        (if due then maintainHazards w₁ else []) ++
          onward (maintainIf due w₁) fun _ w₂ => visits id serveLink readHazards w₂.links.ids w₂

/-- The hazards of a call of `serve_links`. -/
def serveHazards (rounds : List Bool) (w : World) : List Hazard :=
  onward (requeue w) fun _ w₁ =>
    maintainHazards w₁ ++ onward (unlessFatal maintain w₁) fun _ w₂ =>
      visits (fun _ => true) serveRound roundHazards rounds w₂

/-! ## What a call lets go -/

/-- The copies of a payload that are gone after a program that came back are those that its
hazards drop. -/
abbrev Accounts {α : Type} (x : Key × Payload) (m : RouterM α) (w : World) (seen : List Hazard) :
    Prop :=
  Spends (fun w => w.router.path.Free x.2) (fun e => e.aborts = false) (fun w => w.places x)
    (fun h => h.dropped.count x) m w seen

variable {x : Key × Payload} {w : World}

theorem accounts_of_obeys {α : Type} {m : RouterM α} (hm : Obeys (placing x) m w)
    (hfree : w.router.path.Free x.2) : Accounts x m w [] := by
  have hplaced := Placed.of_obeys hm hfree
  exact .quiet hplaced.places (hplaced.free hfree)

theorem errs_of_ok {m : RouterM Unit} {w' : World} (h : m w = (.ok (), w')) : errs m w = false := by
  rw [errs, h]

theorem errs_of_err {m : RouterM Unit} {w' : World} {e : Error} (h : m w = (.error (.err e), w')) :
    errs m w = true := by
  rw [errs, h]

/-- A program that comes back went through or stopped with an `Err`. -/
theorem comesBack_cases {α : Type} {m : RouterM α} (h : ComesBack (fun e => e.aborts = false) m w) :
    (∃ a w', m w = (.ok a, w')) ∨ ∃ e w', m w = (.error (.err e), w') := by
  obtain ⟨r, hr⟩ : ∃ r, m w = r := ⟨_, rfl⟩
  obtain ⟨e | a, w'⟩ := r
  · have hback := h e (congrArg Prod.fst hr)
    cases e with
    | err e => exact .inr ⟨e, w', hr⟩
    | panic | stuck => cases hback
  · exact .inl ⟨a, w', hr⟩

theorem unlessFatal_accounts {m : RouterM Unit} {seen : List Hazard} (h : Accounts x m w seen) :
    Accounts x (unlessFatal m) w seen := by
  intro hback
  obtain ⟨r, hr⟩ : ∃ r, m w = r := ⟨_, rfl⟩
  obtain ⟨e | _, w'⟩ := r
  · have hrun := unlessFatal_of_error hr
    have hsame : (unlessFatal m w).2 = (m w).2 := by rw [hrun, hr]
    rw [hsame]
    refine h fun e' he' => ?_
    rw [hr] at he'
    cases he'
    cases e with
    | err e => rfl
    | panic | stuck => exact hback _ (by rw [hrun]; rfl)
  · have hsame : (unlessFatal m w).2 = (m w).2 := by rw [unlessFatal_of_ok hr, hr]
    rw [hsame]
    refine h fun e' he' => ?_
    rw [hr] at he'
    cases he'

section Tagged

variable (hx : ∃ id, x.2.tag = .traffic id) (hfree : w.router.path.Free x.2)

include hx hfree

/-! ### Sending -/

/-- A payload a session has sealed is carried or kept. -/
theorem sessionSendInner_places {dest : Key} (hsession : dest ∈ w.router.sess.sessions) (kind : UInt8)
    (msg : Payload)
    (hback : ComesBack (fun e => e.aborts = false) (sessionSendInner netSend dest kind msg) w) :
    (sessionSendInner netSend dest kind msg w).2.places x = w.places x + [(dest, msg)].count x ∧
      (sessionSendInner netSend dest kind msg w).2.router.path.Free x.2 := by
  obtain ⟨v, hplaced, ⟨b, hrun⟩ | hpanic⟩ := sessionSendInner_placed netSend hsession kind msg
  rotate_left
  · cases hback .panic (congrArg Prod.fst hpanic)
  have hfree' := (hplaced x).free hfree
  have hnet := Placed.of_obeys (netSend_placing hx dest b v) hfree'
  have hstock : (netSend dest b v).2.places x = w.places x := hnet.places.trans (hplaced x).places
  have hreturns : ComesBack (fun e => e.aborts = false) (netSend dest b) v := by
    intro e he
    cases e with
    | err e => rfl
    | panic | stuck =>
      refine hback _ ?_
      rw [hrun, run_bind_error (result_abort (Prod.ext he rfl) rfl)]
  rcases comesBack_cases hreturns with ⟨_, v', hr⟩ | ⟨e, v', hr⟩
  · rw [hr] at hnet hstock
    rw [hrun, run_bind_ok (result_ok hr), ← hstock]
    exact ⟨places_carried dest msg, hnet.free hfree'⟩
  · rw [hr] at hnet hstock
    rw [hrun, run_bind_ok (result_err hr), ← hstock]
    exact ⟨places_resend _, hnet.free hfree'⟩

/-- A payload that is sent is carried, kept or held. -/
theorem sessionSend_places (dest : Key) (msg : Payload)
    (hback : ComesBack (fun e => e.aborts = false) (sessionSend netSend dest msg) w) :
    (sessionSend netSend dest msg w).2.places x = w.places x + [(dest, msg)].count x ∧
      (sessionSend netSend dest msg w).2.router.path.Free x.2 := by
  obtain ⟨v, hv⟩ : ∃ v : World, v = { w with events := w.events ++ [.passed dest msg] } := ⟨_, rfl⟩
  have hplaces : v.places x = w.places x := hv ▸ places_note List.not_mem_nil
  have hfree' : v.router.path.Free x.2 := by
    rw [hv]
    exact hfree
  have hrun : sessionSend netSend dest msg w =
      sessionSendKind netSend dest packetTypeTraffic msg v := by
    rw [hv]
    rfl
  by_cases hsession : dest ∈ v.router.sess.sessions
  · have hinner : sessionSend netSend dest msg w =
        sessionSendInner netSend dest packetTypeTraffic msg v := by
      rw [hrun, sessionSendKind, router, Prog.gets_bind, if_pos hsession]
    rw [hinner, ← hplaces]
    refine sessionSendInner_places hx hfree' hsession _ msg fun e he => hback e ?_
    rw [hinner]
    exact he
  · obtain ⟨init, v', hheld, hpath, -, hkind⟩ :=
      sessionSendKind_run netSend hsession packetTypeTraffic msg
    have hobeys : (placing x).Allows (encryptInit init sessionTypeInit dest >>= netSend dest) :=
      .bind (encryptInit_beside _ _ _) fun enc => netSend_placing hx dest enc
    have hplaced := Placed.of_obeys (hobeys v') (hpath ▸ hfree')
    rw [hrun, hkind, ← hplaces, ← hheld]
    exact ⟨hplaced.places, hplaced.free (hpath ▸ hfree')⟩

theorem sendAll_places (items : List (Key × Payload))
    (hback : ComesBack (fun e => e.aborts = false) (sendAll items) w) :
    (sendAll items w).2.places x +
        ((sendHazards items w).map fun h => h.dropped.count x).sum = w.places x + items.count x ∧
      (sendAll items w).2.router.path.Free x.2 := by
  induction items generalizing w with
  | nil => exact ⟨rfl, hfree⟩
  | cons y rest ih =>
    obtain ⟨dest, msg⟩ := y
    have hsend := sessionSend_places hx hfree dest msg fun e he => by
      cases e with
      | err e => rfl
      | panic | stuck =>
        refine hback _ ?_
        rw [sendAll]
        exact fst_bind_error (orLose_error (Prod.ext he rfl))
    have hcons : ((dest, msg) :: rest).count x = [(dest, msg)].count x + rest.count x := by
      rw [← List.count_append]
      rfl
    obtain ⟨r, hr⟩ : ∃ r, sessionSend netSend dest msg w = r := ⟨_, rfl⟩
    rw [hr] at hsend
    obtain ⟨e | _, w'⟩ := r
    all_goals
      have hstock : w'.places x = w.places x + [(dest, msg)].count x := hsend.1
      have hfree' : w'.router.path.Free x.2 := hsend.2
    · cases e with
      | err e =>
        rw [sendAll, run_bind_error (orLose_err hr), sendHazards, hr, onward, List.map_singleton,
          List.sum_singleton, Hazard.dropped, if_pos (errs_of_err hr), places_lost, hcons]
        exact ⟨by omega, hfree'⟩
      | panic | stuck => cases hback _ (by rw [sendAll]; exact fst_bind_error (orLose_error hr))
    · have hrun : sendAll ((dest, msg) :: rest) w = sendAll rest w' := by
        rw [sendAll, run_bind_ok (orLose_ok hr)]
      obtain ⟨hrest, hfree''⟩ := ih hfree' fun e he => hback e (by rw [hrun]; exact he)
      rw [hrun, sendHazards, hr, onward, List.map_cons, List.sum_cons, Hazard.dropped,
        if_neg (by rw [errs_of_ok hr]; exact Bool.false_ne_true), List.count_nil, hcons]
      exact ⟨by omega, hfree''⟩

theorem sendOutbox_accounts :
    Accounts x sendOutbox w (sendHazards w.outbox { w with outbox := [] }) := by
  intro hback
  obtain ⟨hstock, hfree'⟩ := sendAll_places (w := { w with outbox := [] }) hx hfree w.outbox hback
  have htaken : World.places { w with outbox := [] } x + w.outbox.count x = w.places x := by
    simp only [World.places, List.count_nil]
    omega
  exact ⟨hstock.trans htaken, hfree'⟩

/-! ### Maintenance -/

omit hx hfree in
/-- What the buffers still hold, and what has run out of time. -/
theorem count_heldPast (bufs : Assoc Key HeldBuf) (t : Instant) (x : Key × Payload) :
    (inHand x.1 ((bufs.retain fun _ b => t < b.deadline).lookup x.1)).count x +
      (heldPast bufs t).count x = (inHand x.1 (bufs.lookup x.1)).count x := by
  have hown : ∀ e : Key × HeldBuf,
      ∀ y ∈ (if t < e.2.deadline then [] else inHand e.1 (some e.2)), y.1 = e.1 := by
    intro e y hy
    split at hy
    · cases hy
    · exact (mem_inHand.mp hy).1
  rw [heldPast, Assoc.count_flatMap_toList Prod.fst hown, Assoc.lookup_retain]
  cases bufs.lookup x.1 with
  | none => rfl
  | some b =>
    by_cases hlate : t < b.deadline
    · simp [hlate, Option.filter]
    · simp [hlate, Option.filter, inHand]

omit hx in
theorem expireEphemeral_accounts : Accounts x expireEphemeral w [.expiry w] := by
  intro _
  obtain ⟨t, ht⟩ : ∃ t, t = w.env.now w.tick := ⟨_, rfl⟩
  obtain ⟨v, hv⟩ : ∃ v : World, v = { w with
      tick := w.tick + 1
      router.path.entries := w.router.path.entries.retain fun _ e => t < e.deadline
      router.path.rumors := w.router.path.rumors.retain fun _ r => t < r.deadline
      router.sess.bufs := w.router.sess.bufs.retain fun _ b => t < b.deadline
      router.sess.sessions := w.router.sess.sessions.retain fun _ e => t < e.2 + sessionTimeout } :=
    ⟨_, rfl⟩
  have hrun : (expireEphemeral w).2 = { v with
      events := v.events ++ (heldPast w.router.sess.bufs t).map fun y => .lost y.1 y.2 } := by
    rw [hv, ht]
    rfl
  rw [hrun]
  refine ⟨?_, fun k r hlookup => ?_⟩
  · dsimp only
    rw [List.map_singleton, List.sum_singleton, places_lost, Hazard.dropped, ← ht]
    have hsplit := count_heldPast w.router.sess.bufs t x
    rw [hv]
    simp only [World.places]
    omega
  · have hretained : (w.router.path.rumors.retain fun _ r => t < r.deadline).lookup k = some r := by
      rw [hv] at hlookup
      exact hlookup
    rw [Assoc.lookup_retain] at hretained
    exact hfree k r (Option.filter_eq_some_iff.mp hretained).1

theorem sweep_accounts : Accounts x sweep w [.expiry w] := by
  refine (expireEphemeral_accounts hfree).bind_quiet fun _ w' _ hfree' => ?_
  refine accounts_of_obeys (.gets_bind (.bind (draw_allows _ w') fun xs w'' _ => ?_)) hfree'
  exact Rules.Allows.forEach (fun k _ => rumorLookup_placing (netSend_placing hx) k) w''

omit hx in
theorem groom_accounts : Accounts x groom w [] := by
  have hallows : (placing x).Allows groom :=
    .bind expireTree_beside fun _ => .bind fix_beside fun _ =>
      .bind sendAnnounces_beside fun _ => bloomMaintenance_beside
  exact accounts_of_obeys (hallows w) hfree

theorem maintain_accounts : Accounts x maintain w (maintainHazards w) := by
  rw [maintain_groom]
  exact (groom_accounts hfree).quiet_bind fun _ w' _ hfree' => sweep_accounts hx hfree'

theorem maintainIf_accounts (due : Bool) :
    Accounts x (maintainIf due) w (if due then maintainHazards w else []) := by
  unfold maintainIf
  cases due with
  | false => exact .pure true hfree
  | true => exact unlessFatal_accounts (maintain_accounts hx hfree)

/-! ### Frames -/

omit hx hfree in
/-- The payload of the buffer is in hand when the session is open. -/
theorem openFor_places (src : Key) (init : SessionInit) (t : Instant) :
    ∃ reply v, openFor src init t w = (.ok reply, v) ∧ v.router.path = w.router.path ∧
      src ∈ v.router.sess.sessions ∧
      v.places x + (inHand src (w.router.sess.bufs.lookup src)).count x = w.places x := by
  refine ⟨_, _, rfl, rfl, (AList.mem_insert _).mpr (.inl rfl), ?_⟩
  show w.outbox.count x + w.router.sess.resend.count x +
      (inHand x.1 ((w.router.sess.bufs.erase src).lookup x.1)).count x +
      (w.events.flatMap Event.settled).count x +
    (inHand src (w.router.sess.bufs.lookup src)).count x = w.places x
  rw [World.places, Assoc.lookup_erase_ite]
  split
  · rename_i hsrc
    rw [hsrc]
    simp only [inHand, Option.bind_none, Option.map_none, Option.toList_none, List.count_nil]
    omega
  · rename_i hsrc
    have hother : (inHand src (w.router.sess.bufs.lookup src)).count x = 0 :=
      List.count_eq_zero.mpr fun hmem => hsrc (mem_inHand.mp hmem).1
    omega

/-- What was held is carried or kept, if the ack went out. -/
theorem ackAndFlush_places {src : Key} (hsession : src ∈ w.router.sess.sessions)
    (reply : Option SessionInit) (held : Option HeldBuf)
    (hback : ComesBack (fun e => e.aborts = false) (ackAndFlush netSend src reply held) w) :
    (ackAndFlush netSend src reply held w).2.places x +
        (Hazard.ack w src reply held).dropped.count x = w.places x + (inHand src held).count x ∧
      (ackAndFlush netSend src reply held w).2.router.path.Free x.2 := by
  have hplaced := Placed.of_obeys (sendAck_placing (netSend_placing hx) src reply w) hfree
  obtain ⟨r, hr⟩ : ∃ r, sendAck netSend src reply w = r := ⟨_, rfl⟩
  rw [hr] at hplaced
  obtain ⟨e | _, v⟩ := r
  all_goals
    have hstock : v.places x = w.places x := hplaced.places
    have hfree' : v.router.path.Free x.2 := hplaced.free hfree
  · cases e with
    | err e =>
      rw [ackAndFlush, run_bind_error (orLose_err hr), Hazard.dropped, if_pos (errs_of_err hr),
        places_lost, hstock]
      exact ⟨rfl, hfree'⟩
    | panic | stuck => cases hback _ (by rw [ackAndFlush]; exact fst_bind_error (orLose_error hr))
  · rw [Hazard.dropped, if_neg (by rw [errs_of_ok hr]; exact Bool.false_ne_true), List.count_nil,
      Nat.add_zero, ← hstock]
    cases hdata : held.bind HeldBuf.data with
    | none =>
      have hrun : ackAndFlush netSend src reply held w = (.ok (), v) := by
        rw [ackAndFlush, run_bind_ok (orLose_ok hr), hdata]
        rfl
      have hempty : inHand src held = [] := by
        rw [inHand, hdata]
        rfl
      rw [hrun, hempty, List.count_nil]
      exact ⟨rfl, hfree'⟩
    | some data =>
      obtain ⟨kind, payload⟩ := data
      have hrun : ackAndFlush netSend src reply held w =
          sessionSendInner netSend src kind payload v := by
        rw [ackAndFlush, run_bind_ok (orLose_ok hr), hdata]
      have hpayload : inHand src held = [(src, payload)] := by
        rw [inHand, hdata]
        rfl
      rw [hrun, hpayload]
      refine sessionSendInner_places hx hfree' (hplaced.sessions src hsession) kind payload ?_
      exact fun e he => hback e (by rw [hrun]; exact he)

theorem openSession_accounts (src : Key) (init : SessionInit) (t : Instant) :
    Accounts x (openSession netSend src init t) w (onward (openFor src init t w) fun reply w' =>
      [.ack w' src reply (w.router.sess.bufs.lookup src)]) := by
  intro hback
  obtain ⟨reply, v, hopen, hpath, hsession, hplaces⟩ := openFor_places (x := x) (w := w) src init t
  have hrun : openSession netSend src init t w =
      ackAndFlush netSend src reply (w.router.sess.bufs.lookup src) v := by
    rw [openSession_openFor, run_bind_ok hopen]
  obtain ⟨hstock, hfree'⟩ := ackAndFlush_places hx (hpath ▸ hfree) hsession reply
    (w.router.sess.bufs.lookup src) fun e he => hback e (by rw [hrun]; exact he)
  rw [hrun, hopen, onward, List.map_singleton, List.sum_singleton]
  exact ⟨hstock.trans hplaces, hfree'⟩

omit hfree in
/-- A message of a session that is there. -/
theorem onInit_placing {src : Key} (hsession : src ∈ w.router.sess.sessions) (isAck : Bool)
    (init : SessionInit) (t : Instant) :
    Obeys (placing x) (onInit netSend src isAck init t) w := by
  obtain ⟨⟨s, t₀⟩, hs⟩ := Assoc.mem_iff_lookup.mp hsession
  refine .gets_bind ?_
  rw [hs]
  have habort : ∀ updated, (placing x).Allows (abortUpdate src s updated t) := fun _ =>
    .bind (insertSession_placing _ _) fun _ => exit_beside _
  refine .ite (fun _ => ?_) fun _ => ?_
  · refine Rules.Allows.bind (draw_allows _) (fun _ => ?_) w
    split
    · exact insertSession_placing _ _
    · exact habort _
  · refine Rules.Allows.bind takeInitSeq_placing (fun _ => .bind (draw_allows _) fun _ => ?_) w
    split
    · exact .bind (insertSession_placing _ _) fun _ => sendAck_placing (netSend_placing hx) _ _
    · exact habort _

theorem onInit_accounts (src : Key) (isAck : Bool) (init : SessionInit) (t : Instant) :
    Accounts x (onInit netSend src isAck init t) w
      (if src ∈ w.router.sess.sessions then []
      else onward (openFor src init t w) fun reply w' =>
        [.ack w' src reply (w.router.sess.bufs.lookup src)]) := by
  by_cases hsession : src ∈ w.router.sess.sessions
  · rw [if_pos hsession]
    exact accounts_of_obeys (onInit_placing hx hsession isAck init t) hfree
  · rw [if_neg hsession]
    refine .gets_bind ?_
    rw [AList.lookup_eq_none.mpr hsession]
    exact openSession_accounts hx hfree src init t

theorem handleSessionBytes_accounts (src : Key) (data : Bytes) :
    Accounts x (handleSessionBytes netSend src data) w (sessionHazards src data w) := by
  have hsend := netSend_placing hx
  unfold handleSessionBytes sessionHazards
  cases data.head? with
  | none => exact .pure () hfree
  | some kind =>
    dsimp only
    by_cases hinit : kind = sessionTypeInit ∨ kind = sessionTypeAck
    · rw [if_pos hinit]
      -- The clock is read first, which changes nothing that is counted.
      show Accounts x (if kind = sessionTypeInit ∨ kind = sessionTypeAck then _ else _)
        { w with tick := w.tick + 1 } _
      rw [if_pos hinit]
      refine .gets_bind ?_
      cases SessionInit.decryptMsg (edToCurvePriv w.router.key) src data with
      | none => exact .pure () hfree
      | some init => exact onInit_accounts (w := { w with tick := w.tick + 1 }) hx hfree src _ init _
    · rw [if_neg hinit]
      refine accounts_of_obeys (draw_bind_obeys ?_) hfree
      rw [if_neg hinit]
      exact .ite (fun _ => onTraffic_placing hsend hx _ _ _ _) fun _ => .pure _

theorem handleInboundTraffic_accounts (tr : Traffic) :
    Accounts x (handleInboundTraffic tr) w (trafficHazards tr w) := by
  have hsend := netSend_placing hx
  refine (accounts_of_obeys (forward_allows tr w) hfree).quiet_bind fun sent w₁ _ hfree₁ => ?_
  cases sent with
  | true => exact .pure () hfree₁
  | false =>
    refine .gets_bind ?_
    by_cases hdest : tr.dest = w₁.router.pubkey
    · rw [if_neg Bool.false_ne_true, if_pos hdest, if_pos hdest]
      have hrefresh : (placing x).Allows (refreshPath tr.source) :=
        .bind (draw_allows _) fun _ => modifyPath_placing fun _ h => h
      refine (accounts_of_obeys (hrefresh w₁) hfree₁).quiet_bind fun _ w₂ _ hfree₂ => ?_
      exact handleSessionBytes_accounts hx hfree₂ tr.source tr.payload
    · rw [if_neg Bool.false_ne_true, if_neg hdest, if_neg hdest]
      exact accounts_of_obeys (handleBroken_placing hsend _ w₁) hfree₁

theorem dispatchFrame_accounts (conn : LinkId) (ftype : FrameType) (payload : Bytes) :
    Accounts x (dispatchFrame conn ftype payload) w (frameHazards conn ftype payload w) := by
  refine .gets_bind ?_
  unfold frameHazards
  cases hpeer : w.links.peerOf conn with
  | none => exact .pure () hfree
  | some peer =>
    dsimp only
    have hidle : (placing x).Allows (if ftype = .keepAlive ∨ ftype = .dummy then pure ()
        else keepaliveIfIdle conn : RouterM Unit) := .ite (.pure _) (keepaliveIfIdle_allows conn)
    by_cases htraffic : ftype = .traffic
    · subst htraffic
      refine .bind_quiet ?_ fun _ w' _ hfree' => accounts_of_obeys (hidle w') hfree'
      rw [handleFrame]
      cases Traffic.decode payload with
      | ok tr => exact handleInboundTraffic_accounts hx hfree tr
      | error e =>
        cases e with
        | err e => exact .pure () hfree
        | panic | stuck =>
          intro hback
          cases hback _ rfl
    · have hquiet : Accounts x (do
          handleFrame conn peer payload ftype
          if ftype = .keepAlive ∨ ftype = .dummy then pure () else keepaliveIfIdle conn) w [] :=
        accounts_of_obeys (Rules.Allows.bind (handleFrame_placing hx conn peer payload htraffic)
          (fun _ => hidle) w) hfree
      cases ftype with
      | traffic => exact absurd rfl htraffic
      | _ => exact hquiet

/-! ### A call -/

theorem serveRead_accounts (conn : LinkId) (r : Read) :
    Accounts x (serveRead conn r) w (match r with
      | .frame ftype payload => frameHazards conn ftype payload w
      | _ => []) := by
  cases r with
  | frame ftype payload => exact unlessFatal_accounts (dispatchFrame_accounts hx hfree conn _ _)
  | failed e =>
    refine accounts_of_obeys (.bind (disconnect_beside conn w) fun _ w' _ => .gets_bind ?_) hfree
    exact .ite (fun _ => exit_beside _ w') fun _ => .pure _
  | quiet =>
    have hidle := unlessFatal_accounts
      (accounts_of_obeys (keepaliveIfIdle_allows (R := placing x) conn w) hfree)
    exact hidle.bind_quiet fun _ w' _ hfree' => .pure true hfree'

theorem serveLink_accounts (conn : LinkId) : Accounts x (serveLink conn) w (readHazards conn w) := by
  have hread : Accounts x (readFrame conn) w [] :=
    accounts_of_obeys (.gets_bind (.ite (fun _ => draw_allows _ w) fun _ => .pure _)) hfree
  exact hread.quiet_bind fun r w' _ hfree' => serveRead_accounts hx hfree' conn r

theorem serveRound_accounts (due : Bool) : Accounts x (serveRound due) w (roundHazards due w) := by
  refine .gets_bind ?_
  unfold roundHazards
  split
  · exact .pure () hfree
  · refine (unlessFatal_accounts (sendOutbox_accounts hx hfree)).bind fun _ w₁ _ hfree₁ => ?_
    refine (maintainIf_accounts hx hfree₁ due).bind fun _ w₂ _ hfree₂ => .gets_bind ?_
    exact .forWhile (fun conn _ _ hfree' => serveLink_accounts hx hfree' conn) hfree₂

/-- **What is gone after a call of `serve_links` is what its hazards dropped.** -/
theorem serveLinks_accounts (rounds : List Bool) :
    Accounts x (serveLinks rounds) w (serveHazards rounds w) := by
  have hrequeue : Accounts x requeue w [] := by
    refine .quiet ?_ hfree
    show World.places { w with
      outbox := w.router.sess.resend ++ w.outbox, router.sess.resend := [] } x = w.places x
    simp only [World.places, List.count_append, List.count_nil]
    omega
  refine hrequeue.quiet_bind fun _ w₁ _ hfree₁ => ?_
  refine (unlessFatal_accounts (maintain_accounts hx hfree₁)).bind fun _ w₂ _ hfree₂ => ?_
  exact .forEach (fun due _ _ hfree' => serveRound_accounts hx hfree' due) hfree₂

end Tagged

/-! ## The outbox -/

/-- A payload is where it should be: carried by `net_send`, in the resend queue, in the outbox,
behind an init or displaced there. -/
def World.Accounted (w : World) (x : Key × Payload) : Prop :=
  Event.carried x.1 x.2 ∈ w.events ∨ x ∈ w.router.sess.resend ∨ x ∈ w.outbox ∨
    x ∈ inHand x.1 (w.router.sess.bufs.lookup x.1) ∨ Event.displaced x.1 x.2 ∈ w.events

omit [Crypto] in
theorem mem_settled {events : List Event} : x ∈ events.flatMap Event.settled ↔
    Event.carried x.1 x.2 ∈ events ∨ Event.displaced x.1 x.2 ∈ events := by
  rw [List.mem_flatMap]
  constructor
  · intro ⟨e, he, hx⟩
    cases e with
    | carried dest p =>
      rw [List.mem_singleton.mp hx]
      exact .inl he
    | displaced dest p =>
      rw [List.mem_singleton.mp hx]
      exact .inr he
    | _ => cases hx
  · rintro (he | he)
    · exact ⟨_, he, List.mem_singleton_self x⟩
    · exact ⟨_, he, List.mem_singleton_self x⟩

theorem accounted_iff : w.Accounted x ↔ 0 < w.places x := by
  simp only [World.places, Nat.add_pos_iff_pos_or_pos, List.count_pos_iff, mem_settled,
    World.Accounted]
  tauto

/-- The payloads a call of `serve_links` is about. -/
def World.queued (w : World) : List (Key × Payload) := w.router.sess.resend ++ w.outbox

/-- Each queued payload has a label of its own, so that it can be told from every other. -/
structure World.Labelled (w : World) : Prop where
  tagged : ∀ x ∈ w.queued, ∃ id, x.2.tag = .traffic id
  once : ∀ x ∈ w.queued, w.places x = 1
  free : ∀ x ∈ w.queued, w.router.path.Free x.2

/-- **Every queued payload is accounted for when `serve_links` comes back, if and only if no
hazard of the call drops one.** -/
theorem queued_accounted_iff (hlabelled : w.Labelled) (rounds : List Bool)
    (hback : ∀ e, (serveLinks rounds w).1 = .error e → e.aborts = false) :
    (∀ x ∈ w.queued, (serveLinks rounds w).2.Accounted x) ↔
      ∀ h ∈ serveHazards rounds w, ∀ x ∈ w.queued, x ∉ h.dropped := by
  have hsum : ∀ x ∈ w.queued, (serveLinks rounds w).2.Accounted x ↔
      ∀ h ∈ serveHazards rounds w, x ∉ h.dropped := by
    intro x hx
    have hstock : (serveLinks rounds w).2.places x +
        ((serveHazards rounds w).map fun h => h.dropped.count x).sum = w.places x :=
      (serveLinks_accounts (hlabelled.tagged x hx) (hlabelled.free x hx) rounds hback).1
    rw [hlabelled.once x hx] at hstock
    have hnone : ((serveHazards rounds w).map fun h => h.dropped.count x).sum = 0 ↔
        ∀ h ∈ serveHazards rounds w, x ∉ h.dropped := by
      simp only [List.sum_eq_zero_iff_forall_eq_nat, List.forall_mem_map, List.count_eq_zero]
    rw [accounted_iff, ← hnone]
    omega
  constructor
  · intro h hazard hhazard x hx
    exact (hsum x hx).mp (h x hx) hazard hhazard
  · intro h x hx
    exact (hsum x hx).mpr fun hazard hhazard => h hazard hhazard x hx

end

/-! ## A run -/

section

attribute [local instance] Sample.lenient

/-- A payload for the node with key 3. -/
def parcel (b : UInt8) (id : Nat) : Key × Payload := (Sample.smallKey 3, ⟨[b], .traffic id⟩)

/-- The node with key 9 has a session with its parent and a path to it, and two payloads wait. One
write is going to be refused. -/
def laden (n : Nat) : World :=
  (World.init (Sample.smallKey 9) (.refusing n)).run (meet ++
    [.frame 0 .sigRes (lowAnswer ⟨1, 0⟩).encode, .enqueue (Sample.smallKey 3) [1] 0,
      .enqueue (Sample.smallKey 3) [2] 1])

/-- The write of the first payload is refused, and the second is nowhere to be found. -/
theorem outbox_rest_lost :
    (laden 36).Reachable ∧ (laden 36).queued = [parcel 1 0, parcel 2 1] ∧
      (serveLinks [false] (laden 36)).1 = .error (.err .io) ∧
      ¬ (serveLinks [false] (laden 36)).2.Accounted (parcel 2 1) := by
  refine ⟨⟨_, _, _, rfl⟩, ?_⟩
  rw [accounted_iff]
  decide +kernel

/-- What the run without a refusal comes to, evaluated once. -/
theorem laden_facts :
    (laden 100).queued = [parcel 1 0, parcel 2 1] ∧
      (∀ e ∈ (laden 100).router.path.rumors.toList, e.2.pending = none) ∧
      (∀ x ∈ [parcel 1 0, parcel 2 1], (laden 100).places x = 1) ∧
      (serveLinks [false] (laden 100)).1 = .ok () ∧
      ∀ x ∈ [parcel 1 0, parcel 2 1], 0 < (serveLinks [false] (laden 100)).2.places x := by
  decide +kernel

theorem laden_labelled : (laden 100).Labelled := by
  obtain ⟨hqueued, hempty, honce, -, -⟩ := laden_facts
  refine ⟨fun x hx => ?_, fun x hx => ?_, fun x hx k r hr hpending => ?_⟩
  · rw [hqueued] at hx
    rcases List.mem_pair.mp hx with rfl | rfl <;> exact ⟨_, rfl⟩
  · rw [hqueued] at hx
    exact honce x hx
  · have hnone := hempty (k, r) (Assoc.mem_toList.mpr hr)
    rw [hpending] at hnone
    cases hnone

/-- Without the refusal both are carried. -/
theorem queued_accounted_laden :
    (serveLinks [false] (laden 100)).1 = .ok () ∧
      ∀ h ∈ serveHazards [false] (laden 100), ∀ x ∈ (laden 100).queued, x ∉ h.dropped := by
  obtain ⟨hqueued, -, -, hok, hplaces⟩ := laden_facts
  refine ⟨hok, (queued_accounted_iff laden_labelled [false] fun e he => ?_).mp fun x hx => ?_⟩
  · rw [hok] at he
    cases he
  · rw [accounted_iff]
    rw [hqueued] at hx
    exact hplaces x hx

end

end Roots

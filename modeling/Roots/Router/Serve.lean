import Roots.Lib.Visits
import Roots.Router.Abort

/-!
# Roots.Router.Serve

`serve_links` of `src/driver.rs`: the outbox, the maintenance and one read of each link, round
after round until the time is up. Here the number of the rounds is given, and for each whether a
maintenance is due in it.

An error inside is not always the end. `fatal_link_error` lets a method's error pass that only
means that a link is gone, as long as a link is left. The error of a read is another matter: its
link is evicted, and **the error of the last link is returned whatever it is**.

`serveLinks_meets` says when a call ends in another way than with a link that is gone. The `Visit`s
of a call are the keys it sends to and the reads it makes, each in the state in which it is made.
A session that has counted to the end (`World.Worn`) is left out.
-/

namespace Roots

open Prog Wire

section

variable [Crypto]

namespace RouterM

/-! ## The loop -/

/-- `fatal_link_error`. An abort is as fatal as can be. -/
def fatalLinkError (ls : LinkSet) (e : Exit) : Bool := !e.isLink || ls.ids.isEmpty

/-- The error of a method is returned if it is fatal. Otherwise the value says whether the
method went through. -/
def unlessFatal (m : RouterM Unit) : RouterM Bool := do
  let sent ← result m
  match sent with
  | .ok _ => return true
  | .error e =>
      let ls ← links
      if fatalLinkError ls e then exit e else return false

/-- `LinkSet::read_frame` within a slice. -/
def readFrame (id : LinkId) : RouterM Read := do
  let ls ← links
  if id ∈ ls.ids then draw Env.reads else return .failed .noLink

/-- What is done with a read. The value says whether the next link is read. -/
def serveRead (id : LinkId) : Read → RouterM Bool
  | .frame ftype payload => unlessFatal (dispatchFrame id ftype payload)
  | .failed e => do
      disconnect id
      let ls ← links
      if ls.ids.isEmpty then fail e else return true
  | .quiet => do
      let _ ← unlessFatal (keepaliveIfIdle id)
      return true

/-- The turn of a link. -/
def serveLink (id : LinkId) : RouterM Bool := do
  let read ← readFrame id
  serveRead id read

/-- The loop of `serve_links` over the links. -/
def drainLinks (ids : List LinkId) : RouterM Unit := forWhile id serveLink ids

/-- The maintenance inside the loop. -/
def maintainIf (due : Bool) : RouterM Bool := if due then unlessFatal maintain else return true

/-- A turn of the loop of `serve_links`. Without links it sleeps. -/
def serveRound (due : Bool) : RouterM Unit := do
  let ls ← links
  if ls.ids.isEmpty then return ()
  else
    let _ ← unlessFatal sendOutbox
    let _ ← maintainIf due
    let ls ← links
    drainLinks ls.ids

/-- `serve_links`. -/
def serveLinks (rounds : List Bool) : RouterM Unit := do
  requeue
  let _ ← unlessFatal maintain
  forEach rounds serveRound

end RouterM

open RouterM

/-! ## What is visited -/

/-- A payload is sent to a key, or a link is read. -/
inductive Visit where
  | send (dest : Key)
  | read (w : World) (id : LinkId) (r : Read)

/-- An abort, or an error that is not that a link is gone. -/
def Grave (e : Exit) : Prop := e.isLink = false

/-- A read that ends the loop for good: a packet that aborts the node, or another error than that a
link is gone from the last link. -/
def Read.Fatal (w : World) (id : LinkId) : Read → Prop
  | .frame ftype payload =>
      ∃ tr, ftype = .traffic ∧ Traffic.decode payload = .ok tr ∧ w.Unanswerable tr
  | .failed e => e.isLink = false ∧ (w.links.remove id).ids = []
  | .quiet => False

/-- A key that is no point cannot be sent to. -/
def Visit.Fatal : Visit → Prop
  | .send dest => edToCurvePub dest = none
  | .read w id r => r.Fatal w id

/-- The sends of an outbox that was taken out. -/
def sendVisits : List (Key × Payload) → World → List Visit
  | [], _ => []
  | (dest, msg) :: rest, w =>
      .send dest :: onward (sessionSend netSend dest msg w) fun _ w' => sendVisits rest w'

/-- The read of a link. -/
def readVisits (id : LinkId) (w : World) : List Visit :=
  onward (readFrame id w) fun r w' => [.read w' id r]

def roundVisits (due : Bool) (w : World) : List Visit :=
  if w.links.ids.isEmpty then []
  else
    sendVisits w.outbox { w with outbox := [] } ++
      onward (unlessFatal sendOutbox w) fun _ w₁ =>
        onward (maintainIf due w₁) fun _ w₂ => visits id serveLink readVisits w₂.links.ids w₂

def serveVisits (rounds : List Bool) (w : World) : List Visit :=
  onward (requeue w) fun _ w₁ =>
    onward (unlessFatal maintain w₁) fun _ w₂ =>
      visits (fun _ => true) serveRound roundVisits rounds w₂

/-! ## When a call fails -/

/-- The invariant is kept, and the program fails gravely if a visit is fatal and only then, unless a
session has counted to the end. -/
abbrev MeetsVisits {α : Type} (m : RouterM α) (w : World) (seen : List Visit) : Prop :=
  Meets (Inv .free) Grave World.Worn Visit.Fatal m w seen

section Meets

variable {α : Type} {w : World} {m : RouterM α}

theorem worn_of_obeys (hw : Inv .free w) (hm : Obeys (rules .free True) m w)
    (hfails : Fails Grave m w) : (m w).2.Worn := by
  obtain ⟨e, he, hgrave⟩ := hfails
  by_contra hworn
  exact hm.not_bad hw he ⟨trivial, hgrave, fun _ => hworn⟩

/-- A program that obeys the strict rules has no visits. -/
theorem meets_of_obeys (hw : Inv .free w) (hm : Obeys (rules .free True) m w) :
    MeetsVisits m w [] :=
  .quiet (worn_of_obeys hw hm) (hm.inv hw)

theorem unlessFatal_of_ok {m : RouterM Unit} {w' : World} (h : m w = (.ok (), w')) :
    unlessFatal m w = (.ok true, w') := by
  rw [unlessFatal, run_bind_ok (result_ok h)]
  rfl

theorem unlessFatal_of_error {m : RouterM Unit} {e : Exit} {w' : World}
    (h : m w = (.error e, w')) :
    unlessFatal m w = (if fatalLinkError w'.links e then .error e else .ok false, w') := by
  cases e with
  | err e =>
    rw [unlessFatal, run_bind_ok (result_err h)]
    show (if fatalLinkError w'.links (.err e) then exit (.err e) else pure false : RouterM Bool) w' = _
    split <;> rfl
  | panic | stuck =>
    rw [unlessFatal, run_bind_error (result_abort h rfl)]
    rfl

omit [Crypto] in
theorem not_grave_of_not_fatal {ls : LinkSet} {e : Exit} (h : ¬ fatalLinkError ls e = true) :
    ¬ Grave e := by
  intro hgrave
  rw [fatalLinkError, hgrave] at h
  exact h rfl

/-- Whether a method fails gravely does not depend on the links that are left. -/
theorem unlessFatal_meets {m : RouterM Unit} {seen : List Visit}
    (h : MeetsVisits m w seen) :
    MeetsVisits (unlessFatal m) w seen := by
  obtain ⟨r, hr⟩ : ∃ r, m w = r := ⟨_, rfl⟩
  have hsame : (unlessFatal m w).2 = (m w).2 ∧
      (Fails Grave (unlessFatal m) w ↔ Fails Grave m w) := by
    obtain ⟨e | _, w'⟩ := r
    · have hrun := unlessFatal_of_error hr
      rw [fails_iff_of_error (congrArg Prod.fst hr), hr]
      refine ⟨by rw [hrun], ?_⟩
      split at hrun
      · rw [fails_iff_of_error (congrArg Prod.fst hrun)]
      · exact iff_of_false (not_fails_of_ok (congrArg Prod.fst hrun)) (not_grave_of_not_fatal ‹_›)
    · have hrun := unlessFatal_of_ok hr
      rw [hrun, hr]
      exact ⟨rfl, iff_of_false (not_fails_of_ok (congrArg Prod.fst hrun))
        (not_fails_of_ok (congrArg Prod.fst hr))⟩
  exact h.transfer hsame.1 hsame.2

theorem orLose_error {items : List (Key × Payload)} {m : RouterM Unit} {e : Exit} {w' : World}
    (h : m w = (.error e, w')) : (orLose items m w).1 = .error e := by
  cases e with
  | err e =>
    rw [orLose, run_bind_ok (result_err h)]
    rfl
  | panic | stuck => rw [orLose, run_bind_error (result_abort h rfl)]

theorem orLose_fails {items : List (Key × Payload)} {m : RouterM Unit} (h : Fails Grave m w) :
    Fails Grave (orLose items m) w := by
  obtain ⟨e, he, hgrave⟩ := h
  have hrun : m w = (.error e, (m w).2) := Prod.ext he rfl
  exact ⟨e, orLose_error hrun, hgrave⟩

theorem onward_orLose {γ : Type} {items : List (Key × Payload)} {m : RouterM Unit}
    (next : Unit → World → List γ) : onward (orLose items m w) next = onward (m w) next := by
  obtain ⟨r, hr⟩ : ∃ r, m w = r := ⟨_, rfl⟩
  obtain ⟨e | _, w'⟩ := r
  · rw [hr, show orLose items m w = (.error e, (orLose items m w).2) from
      Prod.ext (orLose_error hr) rfl]
    rfl
  · rw [hr, orLose_ok hr]

end Meets

section Law

variable (law : PointCrypto) {w : World} (hw : Inv .free w)

include law hw

/-- A session is only with a key that is a point. -/
theorem stranger_of_noPoint {dest : Key} (hpoint : edToCurvePub dest = none) :
    dest ∉ w.router.sess.sessions := by
  intro hsession
  have hsome := law dest (hw.valid dest hsession)
  rw [hpoint] at hsome
  cases hsome

/-- Nothing can be encrypted for a key that is no point. -/
theorem sessionSendKind_aborts {dest : Key} (hpoint : edToCurvePub dest = none) (kind : UInt8)
    (msg : Payload) : (sessionSendKind netSend dest kind msg w).1 = .error .panic := by
  have hmsg : ∀ init msgType fromEd eph,
      SessionInit.encryptMsg init msgType fromEd dest eph = none := by
    intro init msgType fromEd eph
    rw [← Option.not_isSome_iff_eq_none, SessionInit.encryptMsg_isSome, hpoint]
    exact Bool.noConfusion
  have hstranger := stranger_of_noPoint law hw hpoint
  simp [sessionSendKind, takeInitSeq, unixNow, now, router, modifySess, fresh, draw, displace,
    run_bind, hstranger, encryptInit_run, hmsg]

/-! ### The outbox -/

theorem sendAll_meets (items : List (Key × Payload)) :
    MeetsVisits (sendAll items) w (sendVisits items w) := by
  induction items generalizing w with
  | nil => exact .pure () hw
  | cons x rest ih =>
    obtain ⟨dest, msg⟩ := x
    have hobeys : ∀ strict : Prop, (strict → (edToCurvePub dest).isSome) →
        Obeys (rules .free strict) (orLose rest (sessionSend netSend dest msg)) w := fun _ hpoint =>
      orLose_obeys (sessionSend_obeys (sendsFrom_of_allows (netSend_allows fun _ => law) _ _)
        hpoint trivial trivial)
    have hsend : MeetsVisits (orLose rest (sessionSend netSend dest msg)) w [.send dest] := by
      refine .one (fun hpoint => ?_) (fun hfails => ?_) ((hobeys False False.elim).inv hw)
      · have hw₁ := hw.step (Step.note (S := .free) (.passed dest msg) rfl trivial nofun)
        exact orLose_fails ⟨.panic, sessionSendKind_aborts law hw₁ hpoint packetTypeTraffic msg, rfl⟩
      · by_cases hpoint : edToCurvePub dest = none
        · exact .inl hpoint
        · have hsome := Option.isSome_iff_ne_none.mpr hpoint
          exact .inr (worn_of_obeys hw (hobeys True fun _ => hsome) hfails)
    have hall := hsend.bind fun _ w' _ hw' => ih hw'
    rw [onward_orLose] at hall
    exact hall

theorem sendOutbox_meets :
    MeetsVisits sendOutbox w
      (sendVisits w.outbox { w with outbox := [] }) := by
  have hall := sendAll_meets law (hw.step (.takeOutbox trivial)) w.outbox
  exact ⟨hall.fails, hall.blames, hall.keeps⟩

/-! ### The links -/

omit law in
theorem dispatchFrame_inv (conn : LinkId) (ftype : FrameType) (payload : Bytes) :
    Inv .free (dispatchFrame conn ftype payload w).2 := by
  have hobeys := Action.body_obeys (S := .free) False.elim (w := w) (.frame conn ftype payload)
    (Scope.free_open.fits _) (w.permits_free _)
  exact hobeys.inv hw

theorem serveRead_meets (conn : LinkId) (r : Read)
    (hlive : ∀ ftype payload, r = .frame ftype payload → conn ∈ w.links.ids) :
    MeetsVisits (serveRead conn r) w [.read w conn r] := by
  cases r with
  | frame ftype payload =>
    refine unlessFatal_meets (.one ?_ (fun hfails => ?_) (dispatchFrame_inv hw conn ftype payload))
    · rintro ⟨tr, rfl, htr, hun⟩
      exact ⟨.panic, dispatchFrame_aborts (hlive _ payload rfl) htr hun, rfl⟩
    · rw [or_iff_not_imp_left]
      intro hread
      refine worn_of_obeys hw (dispatchFrame_obeys (fun _ => law) conn
        (Scope.free_open.takes ftype) ⟨fun _ _ _ _ => trivial, fun _ _ _ _ _ _ => trivial, ?_⟩)
        hfails
      exact fun _ hftype tr htr hun => hread ⟨tr, hftype, htr, hun⟩
  | failed e =>
    obtain ⟨v, hv⟩ : ∃ v : World, v = (disconnect conn w).2 := ⟨_, rfl⟩
    have hobeys : Obeys (rules .free False) (disconnect conn) w := disconnect_allows trivial conn w
    have hinv : Inv .free v := hv ▸ hobeys.inv hw
    have hrun : serveRead conn (.failed e) w =
        (if v.links.ids.isEmpty then .error (.err e) else .ok true, v) := by
      show (if (disconnect conn w).2.links.ids.isEmpty then fail e else pure true : RouterM Bool)
        (disconnect conn w).2 = _
      rw [← hv]
      split <;> rfl
    have hids : (w.links.remove conn).ids = v.links.ids := by
      rw [hv]
      rfl
    have hfails : Fails Grave (serveRead conn (.failed e)) w ↔ (Read.failed e).Fatal w conn := by
      show _ ↔ e.isLink = false ∧ (w.links.remove conn).ids = []
      rw [hids]
      split at hrun
      · rw [fails_iff_of_error (congrArg Prod.fst hrun)]
        exact (and_iff_left (List.isEmpty_iff.mp ‹_›)).symm
      · refine iff_of_false (not_fails_of_ok (congrArg Prod.fst hrun)) fun h => ?_
        exact absurd (List.isEmpty_iff.mpr h.2) ‹_›
    exact .one hfails.mpr (fun h => .inl (hfails.mp h)) (by rw [hrun]; exact hinv)
  | quiet =>
    have hquiet := unlessFatal_meets (meets_of_obeys hw (keepaliveIfIdle_allows conn w))
    have hmeets := hquiet.bind_quiet (f := fun _ => (pure true : RouterM Bool))
      fun _ w' _ hw' => .pure true hw'
    exact .one False.elim (fun h => (hmeets.blames h).imp (by simp) id) hmeets.keeps

theorem serveLink_meets (conn : LinkId) :
    MeetsVisits (serveLink conn) w (readVisits conn w) := by
  have hread : MeetsVisits (readFrame conn) w [] :=
    meets_of_obeys hw (.gets_bind (.ite (fun _ => draw_allows _ w) fun _ => .pure _))
  refine hread.quiet_bind fun r w' hr hw' => serveRead_meets law hw' conn r ?_
  intro ftype payload hframe
  subst hframe
  change (if conn ∈ w.links.ids then draw Env.reads else pure (.failed .noLink) : RouterM Read) w =
    _ at hr
  split at hr
  · obtain ⟨_, rfl⟩ := Prod.mk.inj hr
    assumption
  · cases hr

theorem drainLinks_meets (ids : List LinkId) :
    MeetsVisits (drainLinks ids) w
      (visits id serveLink readVisits ids w) :=
  .forWhile (fun conn _ _ hw' => serveLink_meets law hw' conn) hw

/-! ### A call -/

theorem maintain_meets : MeetsVisits maintain w [] :=
  meets_of_obeys hw
    (maintain_allows (fun _ => law) trivial trivial trivial trivial trivial trivial trivial trivial w)

theorem maintainIf_meets (due : Bool) :
    MeetsVisits (maintainIf due) w [] := by
  unfold maintainIf
  split
  · exact unlessFatal_meets (maintain_meets law hw)
  · exact .pure true hw

theorem serveRound_meets (due : Bool) :
    MeetsVisits (serveRound due) w (roundVisits due w) := by
  refine .gets_bind ?_
  unfold roundVisits
  split
  · exact .pure () hw
  · refine (unlessFatal_meets (sendOutbox_meets law hw)).bind fun _ w₁ _ hw₁ => ?_
    refine (maintainIf_meets law hw₁ due).quiet_bind fun _ w₂ _ hw₂ => .gets_bind ?_
    exact drainLinks_meets law hw₂ w₂.links.ids

/-- **`serve_links` fails gravely if and only if one of its visits is fatal**, unless a session has
counted to the end. -/
theorem serveLinks_meets (rounds : List Bool) :
    MeetsVisits (serveLinks rounds) w (serveVisits rounds w) := by
  have hrequeue : MeetsVisits requeue w [] :=
    meets_of_obeys hw (.modify fun _ => .requeue)
  refine hrequeue.quiet_bind fun _ w₁ _ hw₁ => ?_
  refine (unlessFatal_meets (maintain_meets law hw₁)).quiet_bind fun _ w₂ _ hw₂ => ?_
  exact .forEach (fun due _ _ hw' => serveRound_meets law hw' due) hw₂

end Law

end

end Roots

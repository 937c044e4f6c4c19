import Mathlib.Logic.Function.Basic
import Mathlib.Logic.Relation
import Roots.Crypto.Sample
import Roots.Session.Endpoint
import Roots.Session.InOrder

/-!
# Roots.Session.Crossed

Two ends without a session open towards each other at the same time, over a
channel that keeps the order of each direction and loses nothing.

What an end sends depends only on what it has received, so every interleaving
takes both ends through the same **stages**: each opens on the other's init,
updates on the other's ack, refuses the payload that was flushed between the two
(its key sequences are one update old), repairs, and updates twice more. Both
repairs cross as the opens did, and the exchange comes to rest with both ends one
key ahead of what the other knows of them. In that state `decrypt` takes its
`next_recv` arm, once: accepting a message rotates the receiver, which is then two
keys ahead, and its reply fits no arm.
-/

namespace Roots

namespace Crossed

section System

variable [Crypto]

/-! ## The system -/

/-- Two ends and the messages in flight. `queue x` is what `x` sent and the other
end has not received, oldest first. -/
structure Wire where
  ends : Side → Endpoint
  queue : Side → List SessionMsg

namespace Wire

/-- `x` moves to `r.1` and sends `r.2`. -/
def act (w : Wire) (x : Side) (r : Endpoint × List SessionMsg) : Wire where
  ends := Function.update w.ends x r.1
  queue := Function.update w.queue x (w.queue x ++ r.2)

/-- `x` calls `session_send`. -/
def send (w : Wire) (x : Side) (msg : Bytes) (d : Draw) : Wire :=
  w.act x ((w.ends x).sendKind packetTypeTraffic msg d)

/-- The oldest message in flight reaches `x`. -/
def deliver (w : Wire) (x : Side) (d : Draw) : Wire :=
  match w.queue x.other with
  | [] => w
  | m :: rest =>
      { w with queue := Function.update w.queue x.other rest }.act x ((w.ends x).receive m d)

inductive Send : Wire → Wire → Prop
  | mk (w : Wire) (x : Side) (msg : Bytes) (d : Draw) : Send w (w.send x msg d)

inductive Deliver : Wire → Wire → Prop
  | mk (w : Wire) (x : Side) (d : Draw) (busy : w.queue x.other ≠ []) : Deliver w (w.deliver x d)

/-- Nothing is in flight. -/
def Quiet (w : Wire) : Prop := ∀ x, w.queue x = []

/-- The init counters have not run out. -/
def Room (w : Wire) : Prop := ∀ x, (w.ends x).initSeq + 1 ≠ 0

end Wire

/-- An end without a session. It may still hold the buffer of an open that was
never answered; the init in it took its number from the counter. -/
structure NoSession (e : Endpoint) : Prop where
  session : e.session = none
  buf : ∀ b, e.buf = some b → b.init.seq ≤ e.initSeq ∧ b.init.seq ≠ 0

/-- A crossed open: from ends without a session, both call `session_send` before
anything is delivered, and then everything is delivered. -/
structure CrossedOpen (w₀ w₁ w : Wire) : Prop where
  start : ∀ x, NoSession (w₀.ends x)
  empty : w₀.Quiet
  sends : Relation.ReflTransGen Wire.Send w₀ w₁
  both : ∀ x, w₁.queue x ≠ []
  delivers : Relation.ReflTransGen Wire.Deliver w₁ w
  quiet : w.Quiet

/-! ## Stages -/

/-- How far an end has come. -/
inductive Stage where
  /-- It has sent its init. -/
  | pending
  /-- It has a session and has sent an ack and its payload. -/
  | opened
  /-- It has taken in the ack. -/
  | acked
  /-- It has refused the payload and sent a repair init. -/
  | refused
  /-- It has taken in the repair init and sent a second ack. -/
  | updated
  /-- It has taken in the second ack. -/
  | settled
deriving DecidableEq

/-- The stage the peer of an end at this stage reaches on what the end has sent. -/
def Stage.target : Stage → Stage
  | .pending => .opened
  | .opened => .refused
  | .acked => .refused
  | .refused => .updated
  | .updated => .settled
  | .settled => .settled

/-- The local key sequence of an end with a session. -/
def Stage.keySeq : Stage → UInt64
  | .pending => 0
  | .opened => 1
  | .acked => 2
  | .refused => 2
  | .updated => 3
  | .settled => 4

/-- What a message does to an end: the stage and the init or ack it accepted last,
before and after. -/
inductive Takes : Stage → SessionInit → SessionMsg → Stage → SessionInit → Prop
  | init {i j : SessionInit} (seq : j.seq ≠ 0) (keySeq : j.keySeq = 0) :
      Takes .pending i (.init false j) .opened j
  | again {i : SessionInit} : Takes .opened i (.init false i) .opened i
  | ack {i j : SessionInit} (seq : i.seq < j.seq) (keySeq : j.keySeq = 1) :
      Takes .opened i (.init true j) .acked j
  | payload {i : SessionInit} (s : Session) (msg : Bytes) (lks : s.localKeySeq = 1)
      (rks : s.remoteKeySeq = 0) : Takes .acked i (.traffic (s.sealTraffic msg)) .refused i
  | repair {i j : SessionInit} (seq : i.seq < j.seq) (keySeq : j.keySeq = 2) :
      Takes .refused i (.init false j) .updated j
  | repairAck {i j : SessionInit} (seq : i.seq < j.seq) (keySeq : j.keySeq = 3) :
      Takes .updated i (.init true j) .settled j

/-- What the messages in flight will do to the end they are for. -/
inductive Lane : Stage → SessionInit → List SessionMsg → Stage → SessionInit → Prop
  | nil {st : Stage} {i : SessionInit} : Lane st i [] st i
  | cons {st st' st'' : Stage} {i i' i'' : SessionInit} {m : SessionMsg} {q : List SessionMsg}
      (head : Takes st i m st' i') (tail : Lane st' i' q st'' i'') : Lane st i (m :: q) st'' i''

theorem Lane.append {st st' st'' : Stage} {i i' i'' : SessionInit} {q q' : List SessionMsg}
    (h : Lane st i q st' i') (h' : Lane st' i' q' st'' i'') : Lane st i (q ++ q') st'' i'' := by
  induction h with
  | nil => exact h'
  | cons head _ ih => exact .cons head (ih h')

theorem Lane.of_nil {st st' : Stage} {i i' : SessionInit} (h : Lane st i [] st' i') :
    st = st' ∧ i = i' := by
  generalize hq : ([] : List SessionMsg) = q at h
  cases h with
  | nil => exact ⟨rfl, rfl⟩
  | cons => cases hq

theorem Lane.uncons {st st'' : Stage} {i i'' : SessionInit} {m : SessionMsg} {q : List SessionMsg}
    (h : Lane st i (m :: q) st'' i'') : ∃ st' i', Takes st i m st' i' ∧ Lane st' i' q st'' i'' := by
  cases h with
  | cons head tail => exact ⟨_, _, head, tail⟩

theorem Lane.single {st st' : Stage} {i i' : SessionInit} {m : SessionMsg}
    (h : Takes st i m st' i') : Lane st i [m] st' i' :=
  .cons h .nil

/-! ## What a stage says of the end -/

/-- The session of an end that accepted `i` last. -/
structure Holds (s : Session) (i : SessionInit) (lks : UInt64) : Prop where
  seq : s.seq = i.seq
  remoteKeySeq : s.remoteKeySeq = i.keySeq
  current : s.current = i.current
  next : s.next = i.next
  localKeySeq : s.localKeySeq = lks
  behind : i.keySeq + 1 = lks
  sendNonce : s.sendNonce = 1
  nextRecvNonce : s.nextRecvNonce = 0
  rotatedAt : s.rotatedAt = none

/-- What holds of an end at a stage that accepted `i` last. -/
def EndOk (e : Endpoint) (i : SessionInit) : Stage → Prop
  | .pending => e.session = none ∧ ∃ b, e.buf = some b ∧ b.data.isSome
  | st => ∃ s, e.session = some s ∧ Holds s i st.keySeq

/-- What the last init or ack `j` of an end says about its keys, as far as it
matters: while it is up to date the announced keys are `send` and `next`, and one
update later they are `recv` and `send`. -/
def Told (e : Endpoint) (j : SessionInit) : Stage → Prop
  | .updated => ∃ s, e.session = some s ∧ j.current = s.send.pub ∧ j.next = s.nextKeys.pub
  | .settled => ∃ s, e.session = some s ∧ j.current = s.recv.pub ∧ j.next = s.send.pub
  | _ => True

/-! ## One receipt -/

/-- What a receipt achieves: the end is at the new stage, and what it sends moves
the peer on. -/
def Advances (e' : Endpoint) (out : List SessionMsg) (st : Stage) (j : SessionInit) (st' : Stage)
    (i' : SessionInit) : Prop :=
  EndOk e' i' st' ∧ ∃ j', Told e' j' st' ∧ j'.seq ≤ e'.initSeq ∧ Lane st.target j out st'.target j'

section Receive

variable {e : Endpoint} {i j j₀ : SessionInit} {d : Draw}

theorem Holds.applyUpdate {s : Session} {lks : UInt64} (h : Holds s i lks) (fresh : BoxKeys)
    (hbehind : j.keySeq + 1 = lks + 1) : Holds (s.applyUpdate j fresh) j (lks + 1) where
  seq := rfl
  remoteKeySeq := rfl
  current := rfl
  next := rfl
  localKeySeq := congrArg (· + 1) h.localKeySeq
  behind := hbehind
  sendNonce := h.sendNonce
  nextRecvNonce := rfl
  rotatedAt := h.rotatedAt

theorem Holds.seq_lt {s : Session} {lks : UInt64} (h : Holds s i lks) (hlt : i.seq < j.seq) :
    s.seq < j.seq :=
  h.seq ▸ hlt

/-- An init opens the session: the buffered keys are adopted, the init is taken in,
and the ack and the held payload leave. -/
theorem advances_init (hok : EndOk e i .pending) (hj : j.seq ≤ e.initSeq) (hseq : j₀.seq ≠ 0)
    (hkey : j₀.keySeq = 0)
    (hroom : (e.receive (.init false j₀) d).1.initSeq + 1 ≠ 0) :
    Advances (e.receive (.init false j₀) d).1 (e.receive (.init false j₀) d).2 .pending j .opened
      j₀ := by
  obtain ⟨hs, b, hb, hdata⟩ := hok
  obtain ⟨⟨kind, payload⟩, hdata⟩ := Option.isSome_iff_exists.mp hdata
  have hopen := Session.handleInit_of_new
    (s := (Session.forInit j₀ d.first d.second d.third).adoptBuffered b.send b.nextKeys) hseq rfl
  obtain ⟨s₀, hs₀⟩ : ∃ s₀, s₀ = ((Session.forInit j₀ d.first d.second d.third).adoptBuffered
    b.send b.nextKeys).applyUpdate j₀ d.fourth := ⟨_, rfl⟩
  have hwrap : s₀.sendNonce + 1 ≠ 0 := by
    rw [hs₀]
    exact (by decide : (0 : UInt64) + 1 ≠ 0)
  have hreceive : e.receive (.init false j₀) d =
      ({ e with
          session := some (s₀.withSendNonce (s₀.sendNonce + 1))
          buf := none
          initSeq := nextInitSeq d.unixNow e.initSeq
          sealed := e.sealed ++
            [(s₀.withSendNonce (s₀.sendNonce + 1)).sealing (kind :: payload)] },
        [.init true (s₀.makeInit (nextInitSeq d.unixNow e.initSeq)),
          .traffic ((s₀.withSendNonce (s₀.sendNonce + 1)).sealTraffic (kind :: payload))]) := by
    simp only [Endpoint.receive, Endpoint.onInit, hs, Endpoint.openSession, hb, hopen, ← hs₀,
      Option.bind_some, hdata, Endpoint.sendInner, Session.encrypt,
      Session.advanceNonce_of_ne hwrap]
    rfl
  rw [hreceive] at hroom ⊢
  have hlt : j.seq < nextInitSeq d.unixNow e.initSeq :=
    UInt64.lt_of_le_of_lt hj (lt_nextInitSeq hroom)
  refine ⟨⟨_, rfl, ?_⟩, s₀.makeInit _, trivial, UInt64.le_refl _, ?_⟩
  · rw [hs₀]
    exact ⟨rfl, rfl, rfl, rfl, rfl, by rw [hkey]; rfl, rfl, rfl, rfl⟩
  · refine .cons (.ack hlt ?_) (.single (.payload _ _ ?_ ?_))
    · rw [hs₀]
      rfl
    · rw [hs₀]
      rfl
    · rw [hs₀]
      exact hkey

/-- A copy of the init that opened the session is refused as old. -/
theorem advances_again (hok : EndOk e i .opened) (hj : j.seq ≤ e.initSeq) :
    Advances (e.receive (.init false i) d).1 (e.receive (.init false i) d).2 .opened j .opened
      i := by
  obtain ⟨s, hs, hholds⟩ := hok
  have hreceive : e.receive (.init false i) d =
      ({ e with session := some s, initSeq := nextInitSeq d.unixNow e.initSeq }, []) := by
    have hold : s.handleInit i (nextInitSeq d.unixNow e.initSeq) d.first = (s, none) :=
      if_pos (UInt64.le_of_eq hholds.seq.symm)
    simp [Endpoint.receive, Endpoint.onInit, hs, hold]
  rw [hreceive]
  exact ⟨⟨s, rfl, hholds⟩, j, trivial, UInt64.le_trans hj (le_nextInitSeq _ _), .nil⟩

theorem receive_ack {s : Session} (hs : e.session = some s) (hlt : s.seq < j₀.seq) :
    e.receive (.init true j₀) d = ({ e with session := some (s.applyUpdate j₀ d.first) }, []) := by
  simp [Endpoint.receive, Endpoint.onInit, hs, Session.handleAck_of_lt hlt]

theorem advances_ack (hok : EndOk e i .opened) (hj : j.seq ≤ e.initSeq) (hlt : i.seq < j₀.seq)
    (hkey : j₀.keySeq = 1) :
    Advances (e.receive (.init true j₀) d).1 (e.receive (.init true j₀) d).2 .opened j .acked
      j₀ := by
  obtain ⟨s, hs, hholds⟩ := hok
  rw [receive_ack hs (hholds.seq_lt hlt)]
  exact ⟨⟨_, rfl, hholds.applyUpdate d.first (by rw [hkey]; rfl)⟩, j, trivial, hj, .nil⟩

/-- The flushed payload names key sequences the session has moved on from. -/
theorem advances_payload (hok : EndOk e i .acked) (hj : j.seq ≤ e.initSeq) {s₀ : Session}
    (hlks : s₀.localKeySeq = 1) (hrks : s₀.remoteKeySeq = 0) (msg : Bytes)
    (hroom : (e.receive (.traffic (s₀.sealTraffic msg)) d).1.initSeq + 1 ≠ 0) :
    Advances (e.receive (.traffic (s₀.sealTraffic msg)) d).1
      (e.receive (.traffic (s₀.sealTraffic msg)) d).2 .acked j .refused i := by
  obtain ⟨s, hs, hholds⟩ := hok
  have hlocal : s.localKeySeq = 2 := hholds.localKeySeq
  have hremote : s.remoteKeySeq = 1 := by
    have hbehind : i.keySeq + 1 = 2 := hholds.behind
    rw [hholds.remoteKeySeq]
    grind
  have hrefused : s.openTraffic (s₀.sealTraffic msg) = none := by
    refine Session.openTraffic_sealTraffic_eq_none ?_ msg
    intro c
    cases c <;> simp [Session.Matches, hlks, hrks, hlocal, hremote]
  have hreceive : e.receive (.traffic (s₀.sealTraffic msg)) d =
      ({ e with initSeq := nextInitSeq d.unixNow e.initSeq },
        [.init false (s.makeInit (nextInitSeq d.unixNow e.initSeq))]) := by
    simp [Endpoint.receive, Endpoint.onTraffic, hs, Session.decrypt, Session.decryptDue, hrefused]
  rw [hreceive] at hroom ⊢
  have hlt : j.seq < nextInitSeq d.unixNow e.initSeq :=
    UInt64.lt_of_le_of_lt hj (lt_nextInitSeq hroom)
  exact ⟨⟨s, hs, hholds⟩, s.makeInit _, trivial, UInt64.le_refl _,
    .single (.repair hlt hholds.localKeySeq)⟩

theorem advances_repair (hok : EndOk e i .refused) (hj : j.seq ≤ e.initSeq)
    (hlt : i.seq < j₀.seq) (hkey : j₀.keySeq = 2)
    (hroom : (e.receive (.init false j₀) d).1.initSeq + 1 ≠ 0) :
    Advances (e.receive (.init false j₀) d).1 (e.receive (.init false j₀) d).2 .refused j
      .updated j₀ := by
  obtain ⟨s, hs, hholds⟩ := hok
  have hreceive : e.receive (.init false j₀) d =
      ({ e with
          session := some (s.applyUpdate j₀ d.first)
          initSeq := nextInitSeq d.unixNow e.initSeq },
        [.init true ((s.applyUpdate j₀ d.first).makeInit (nextInitSeq d.unixNow e.initSeq))]) := by
    simp [Endpoint.receive, Endpoint.onInit, hs, Session.handleInit_of_lt (hholds.seq_lt hlt)]
  rw [hreceive] at hroom ⊢
  have hlt' : j.seq < nextInitSeq d.unixNow e.initSeq :=
    UInt64.lt_of_le_of_lt hj (lt_nextInitSeq hroom)
  have hupdated : Holds (s.applyUpdate j₀ d.first) j₀ 3 :=
    hholds.applyUpdate d.first (by rw [hkey]; rfl)
  exact ⟨⟨_, rfl, hupdated⟩, _, ⟨_, rfl, rfl, rfl⟩, UInt64.le_refl _,
    .single (.repairAck hlt' hupdated.localKeySeq)⟩

theorem advances_repairAck (hok : EndOk e i .updated) (htold : Told e j .updated)
    (hj : j.seq ≤ e.initSeq) (hlt : i.seq < j₀.seq) (hkey : j₀.keySeq = 3) :
    Advances (e.receive (.init true j₀) d).1 (e.receive (.init true j₀) d).2 .updated j .settled
      j₀ := by
  obtain ⟨s, hs, hholds⟩ := hok
  obtain ⟨s', hs', hcurrent, hnext⟩ := htold
  obtain rfl : s = s' := Option.some.inj (hs.symm.trans hs')
  rw [receive_ack hs (hholds.seq_lt hlt)]
  exact ⟨⟨_, rfl, hholds.applyUpdate d.first (by rw [hkey]; rfl)⟩, j, ⟨_, rfl, hcurrent, hnext⟩,
    hj, .nil⟩

/-- One receipt, whatever the stage. -/
theorem advances_receive {st st' : Stage} {i' : SessionInit} {m : SessionMsg}
    (htakes : Takes st i m st' i') (hok : EndOk e i st) (htold : Told e j st)
    (hj : j.seq ≤ e.initSeq) (hroom : (e.receive m d).1.initSeq + 1 ≠ 0) :
    Advances (e.receive m d).1 (e.receive m d).2 st j st' i' := by
  cases htakes with
  | init seq keySeq => exact advances_init hok hj seq keySeq hroom
  | again => exact advances_again hok hj
  | ack seq keySeq => exact advances_ack hok hj seq keySeq
  | payload s msg lks rks => exact advances_payload hok hj lks rks msg hroom
  | repair seq keySeq => exact advances_repair hok hj seq keySeq hroom
  | repairAck seq keySeq => exact advances_repairAck hok htold hj seq keySeq

theorem receive_initSeq_le (e : Endpoint) (m : SessionMsg) (d : Draw) :
    e.initSeq ≤ (e.receive m d).1.initSeq := by
  have hle := le_nextInitSeq d.unixNow e.initSeq
  cases m with
  | init isAck init =>
    simp only [Endpoint.receive, Endpoint.onInit]
    cases e.session with
    | none =>
      simp only [Endpoint.openSession]
      cases e.buf.bind SessionBuf.data <;> exact hle
    | some s =>
      cases isAck with
      | true => exact UInt64.le_refl _
      | false => exact hle
  | traffic ct =>
    simp only [Endpoint.receive, Endpoint.onTraffic]
    cases e.session with
    | none => exact UInt64.le_trans hle (le_nextInitSeq _ _)
    | some s =>
      dsimp only
      split <;> exact hle

end Receive

/-! ## Runs -/

/-- The state of a crossed open: the stage of each end, what it accepted last and
what it announced last. -/
structure Inv (w : Wire) (st : Side → Stage) (last told : Side → SessionInit) : Prop where
  endOk : ∀ x, EndOk (w.ends x) (last x) (st x)
  announced : ∀ x, Told (w.ends x) (told x) (st x)
  counted : ∀ x, (told x).seq ≤ (w.ends x).initSeq
  lane : ∀ x, Lane (st x) (last x) (w.queue x.other) (st x.other).target (told x.other)

section Runs

variable {w w' : Wire}

theorem Wire.deliver_ends_self (w : Wire) (x : Side) (d : Draw) {m : SessionMsg}
    {rest : List SessionMsg} (hq : w.queue x.other = m :: rest) :
    (w.deliver x d).ends x = ((w.ends x).receive m d).1 := by
  simp [Wire.deliver, hq, Wire.act]

theorem Wire.deliver_ends_other (w : Wire) (x : Side) (d : Draw) :
    (w.deliver x d).ends x.other = w.ends x.other := by
  unfold Wire.deliver
  cases w.queue x.other <;> simp [Wire.act]

theorem Wire.deliver_queue_self (w : Wire) (x : Side) (d : Draw) {m : SessionMsg}
    {rest : List SessionMsg} (hq : w.queue x.other = m :: rest) :
    (w.deliver x d).queue x = w.queue x ++ ((w.ends x).receive m d).2 := by
  simp [Wire.deliver, hq, Wire.act]

theorem Wire.deliver_queue_other (w : Wire) (x : Side) (d : Draw) {m : SessionMsg}
    {rest : List SessionMsg} (hq : w.queue x.other = m :: rest) :
    (w.deliver x d).queue x.other = rest := by
  simp [Wire.deliver, hq, Wire.act]

theorem room_of_deliver (h : Wire.Deliver w w') (hroom : w'.Room) : w.Room := by
  obtain ⟨x, d, busy⟩ := h
  intro z
  have hz := hroom z
  rcases Side.eq_or_eq_other x z with rfl | rfl
  · obtain ⟨m, rest, hq⟩ := List.exists_cons_of_ne_nil busy
    rw [w.deliver_ends_self z d hq] at hz
    have hle := receive_initSeq_le (w.ends z) m d
    grind
  · rw [w.deliver_ends_other] at hz
    exact hz

/-- A delivery keeps the invariant: the end that receives goes to its next stage,
and what it sends extends what is in flight to the other. -/
theorem Inv.deliver {st : Side → Stage} {last told : Side → SessionInit} (h : Inv w st last told)
    (hstep : Wire.Deliver w w') (hroom : w'.Room) : ∃ st' last' told', Inv w' st' last' told' := by
  obtain ⟨x, d, busy⟩ := hstep
  obtain ⟨m, rest, hq⟩ := List.exists_cons_of_ne_nil busy
  have hlane := h.lane x
  have hlane' := h.lane x.other
  rw [Side.other_other] at hlane'
  rw [hq] at hlane
  obtain ⟨st', i', htakes, htail⟩ := hlane.uncons
  have hx := hroom x
  rw [w.deliver_ends_self x d hq] at hx
  obtain ⟨hok, j', htold, hj', hout⟩ :=
    advances_receive (d := d) htakes (h.endOk x) (h.announced x) (h.counted x) hx
  refine ⟨Function.update st x st', Function.update last x i', Function.update told x j',
    ?_, ?_, ?_, ?_⟩
  all_goals
    intro z
    rcases Side.eq_or_eq_other x z with rfl | rfl
  · rw [w.deliver_ends_self z d hq, Function.update_self, Function.update_self]
    exact hok
  · rw [w.deliver_ends_other]
    simpa using h.endOk x.other
  · rw [w.deliver_ends_self z d hq, Function.update_self, Function.update_self]
    exact htold
  · rw [w.deliver_ends_other]
    simpa using h.announced x.other
  · rw [w.deliver_ends_self z d hq, Function.update_self]
    exact hj'
  · rw [w.deliver_ends_other]
    simpa using h.counted x.other
  · rw [w.deliver_queue_other z d hq]
    simpa using htail
  · rw [Side.other_other, w.deliver_queue_self x d hq]
    simpa using hlane'.append hout

theorem Inv.of_delivers {w₁ w : Wire}
    (h : w₁.Room → ∃ st last told, Inv w₁ st last told)
    (hrun : Relation.ReflTransGen Wire.Deliver w₁ w) (hroom : w.Room) :
    ∃ st last told, Inv w st last told := by
  induction hrun with
  | refl => exact h hroom
  | tail _ hstep ih =>
    obtain ⟨st, last, told, hinv⟩ := ih (room_of_deliver hstep hroom)
    exact hinv.deliver hstep hroom

/-! ### The opening sends -/

/-- An end before anything is delivered: it has sent nothing, or copies of one
init. -/
def Opening (e : Endpoint) (q : List SessionMsg) : Prop :=
  (NoSession e ∧ q = []) ∨
    ∃ b, e.session = none ∧ e.buf = some b ∧ b.data.isSome ∧ b.init.seq ≤ e.initSeq ∧
      ∀ i, Lane .pending i q .opened b.init

theorem Opening.send {e : Endpoint} {q : List SessionMsg} (h : Opening e q) (msg : Bytes)
    (d : Draw) :
    Opening (e.sendKind packetTypeTraffic msg d).1
      (q ++ (e.sendKind packetTypeTraffic msg d).2) := by
  have hle := le_nextInitSeq d.unixNow e.initSeq
  refine .inr ?_
  rcases h with ⟨hno, rfl⟩ | ⟨b, hs, hb, -, hseq, hlane⟩
  · simp only [Endpoint.sendKind, hno.session]
    refine ⟨_, trivial, rfl, rfl, ?_, fun i => .single (.init ?_ ?_)⟩
    · cases hb : e.buf with
      | none => exact UInt64.le_refl _
      | some b => exact UInt64.le_trans (hno.buf b hb).1 hle
    · cases hb : e.buf with
      | none => exact nextInitSeq_ne_zero _ _
      | some b => exact (hno.buf b hb).2
    · cases hb : e.buf with
      | none => rfl
      | some b => exact b.keySeq_eq
  · simp only [Endpoint.sendKind, hs, hb]
    exact ⟨_, trivial, rfl, rfl, UInt64.le_trans hseq hle, fun i => (hlane i).append (.single .again)⟩

theorem opening_of_sends {w₀ w₁ : Wire} (h : ∀ x, Opening (w₀.ends x) (w₀.queue x))
    (hrun : Relation.ReflTransGen Wire.Send w₀ w₁) : ∀ x, Opening (w₁.ends x) (w₁.queue x) := by
  induction hrun with
  | refl => exact h
  | tail _ hstep ih =>
    obtain ⟨x, msg, d⟩ := hstep
    intro z
    rcases Side.eq_or_eq_other x z with rfl | rfl
    · simpa [Wire.send, Wire.act] using (ih z).send msg d
    · simpa [Wire.send, Wire.act] using ih x.other

/-- Once both ends have sent, both are pending. -/
theorem Inv.of_opening {w₁ : Wire} (h : ∀ x, Opening (w₁.ends x) (w₁.queue x))
    (hboth : ∀ x, w₁.queue x ≠ []) : ∃ st last told, Inv w₁ st last told := by
  have hpending : ∀ x, ∃ b, (w₁.ends x).session = none ∧ (w₁.ends x).buf = some b ∧
      b.data.isSome ∧ b.init.seq ≤ (w₁.ends x).initSeq ∧
      ∀ i, Lane .pending i (w₁.queue x) .opened b.init := by
    intro x
    exact (h x).resolve_left fun hidle => hboth x hidle.2
  choose b hs hb hdata hseq hlane using hpending
  refine ⟨fun _ => .pending, fun x => (b x).init, fun x => (b x).init, ?_, ?_, hseq, ?_⟩
  · exact fun x => ⟨hs x, b x, hb x, hdata x⟩
  · exact fun _ => trivial
  · exact fun x => hlane x.other _

/-- At rest both ends are settled, and each knows what the other announced last. -/
theorem Inv.settled_of_quiet {st : Side → Stage} {last told : Side → SessionInit}
    (h : Inv w st last told) (hquiet : w.Quiet) (x : Side) :
    st x = .settled ∧ last x = told x.other := by
  have hrest : ∀ z, st z = (st z.other).target ∧ last z = told z.other := by
    intro z
    have hlane := h.lane z
    rw [hquiet z.other] at hlane
    exact hlane.of_nil
  refine ⟨?_, (hrest x).2⟩
  have hx := (hrest x).1
  have hother := (hrest x.other).1
  rw [Side.other_other] at hother
  rw [hother] at hx
  cases hst : st x <;> rw [hst] at hx <;> first | rfl | cases hx

end Runs

/-! ## After the exchange -/

/-- Two sessions that are each one key ahead of what the other knows, and have
never rotated. -/
structure BothAhead (s t : Session) : Prop where
  sKeySeq : s.localKeySeq = 4 ∧ s.remoteKeySeq = 3
  tKeySeq : t.localKeySeq = 4 ∧ t.remoteKeySeq = 3
  current : s.current = t.recv.pub
  next : t.next = s.send.pub
  sendNonce : s.sendNonce = 1
  nextRecvNonce : t.nextRecvNonce = 0
  rotatedAt : t.rotatedAt = none

theorem Holds.settled_keySeq {s : Session} {i : SessionInit}
    (h : Holds s i Stage.settled.keySeq) : s.localKeySeq = 4 ∧ s.remoteKeySeq = 3 := by
  have hbehind : i.keySeq + 1 = 4 := h.behind
  refine ⟨h.localKeySeq, ?_⟩
  rw [h.remoteKeySeq]
  grind

/-- A crossed open comes to rest with both ends ahead. -/
theorem CrossedOpen.bothAhead {w₀ w₁ w : Wire} (h : CrossedOpen w₀ w₁ w) (hroom : w.Room)
    (x : Side) :
    ∃ s t, (w.ends x).session = some s ∧ (w.ends x.other).session = some t ∧ BothAhead s t := by
  have hopening : ∀ z, Opening (w₀.ends z) (w₀.queue z) := fun z => .inl ⟨h.start z, h.empty z⟩
  have hopened := opening_of_sends hopening h.sends
  obtain ⟨st, last, told, hinv⟩ :=
    Inv.of_delivers (fun _ => Inv.of_opening hopened h.both) h.delivers hroom
  obtain ⟨hst, hlast⟩ := hinv.settled_of_quiet h.quiet x
  obtain ⟨hst', hlast'⟩ := hinv.settled_of_quiet h.quiet x.other
  rw [Side.other_other] at hlast'
  have hx := hinv.endOk x
  have hy := hinv.endOk x.other
  have htx := hinv.announced x
  have hty := hinv.announced x.other
  rw [hst] at hx htx
  rw [hst'] at hy hty
  obtain ⟨s, hs, hholds⟩ := hx
  obtain ⟨t, ht, hholds'⟩ := hy
  obtain ⟨s', hs', -, hnext⟩ := htx
  obtain ⟨t', ht', hcurrent, -⟩ := hty
  obtain rfl : s = s' := Option.some.inj (hs.symm.trans hs')
  obtain rfl : t = t' := Option.some.inj (ht.symm.trans ht')
  refine ⟨s, t, hs, ht, hholds.settled_keySeq, hholds'.settled_keySeq, ?_, ?_, hholds.sendNonce,
    hholds'.nextRecvNonce, hholds'.rotatedAt⟩
  · rw [hholds.current, hlast, hcurrent]
  · rw [hholds'.next, hlast', hnext]

/-- The first message is opened in the `next_recv` arm and rotates the receiver. -/
theorem BothAhead.decrypt_first (law : BoxRoundtrip) {s t : Session} (h : BothAhead s t)
    (msg : Bytes) (fresh : BoxKeys) (now : Instant) :
    ∃ t', t.decrypt ((s.withSendNonce (s.sendNonce + 1)).sealTraffic msg) fresh now =
        (t', some msg) ∧ t'.localKeySeq = 5 ∧ t'.remoteKeySeq = 4 ∧ t'.sendNonce = 0 := by
  have hcarries := Session.carries_sealTraffic law (s.withSendNonce (s.sendNonce + 1)) msg
  have hmatch : t.Matches s.localKeySeq s.remoteKeySeq .nextRecv := by
    simp [Session.Matches, h.sKeySeq, h.tKeySeq]
  have hpair : s(s.current, s.send.pub) = t.pairOf .nextRecv := by
    rw [h.current, ← h.next, Sym2.eq_swap]
    rfl
  have hnonce : t.guardNonce .nextRecv < s.sendNonce + 1 := by
    simp [Session.guardNonce, h.nextRecvNonce, h.sendNonce]
  have hdue : t.rotationDue now = true := by simp [Session.rotationDue, h.rotatedAt]
  have hdecrypt := Session.decryptDue_of_carries law hcarries hmatch hpair hnonce true fresh now
  refine ⟨t.accept true .nextRecv s.nextKeys.pub (s.sendNonce + 1) fresh now, ?_, ?_, ?_, ?_⟩
  · rw [Session.decrypt, hdue, hdecrypt]
    rfl
  · exact congrArg (· + 1) h.tKeySeq.1
  · exact congrArg (· + 1) h.tKeySeq.2
  · rfl

/-- The rotated receiver is two keys ahead: nothing it seals fits an arm. -/
theorem BothAhead.refuses_reply {s t t' : Session} (h : BothAhead s t)
    (hlocal : t'.localKeySeq = 5) (hremote : t'.remoteKeySeq = 4) (n m : UInt64) (msg : Bytes) :
    (s.withSendNonce n).openTraffic ((t'.withSendNonce m).sealTraffic msg) = none := by
  refine Session.openTraffic_sealTraffic_eq_none ?_ msg
  have hs := h.sKeySeq
  intro c
  cases c <;>
    simp [Session.Matches, Session.withSendNonce, hs, hlocal, hremote]

/-- `x` sends `p`, and the oldest message in flight to the other end arrives. -/
def Wire.sendAndDeliver (w : Wire) (x : Side) (p : Bytes) (d d' : Draw) : Wire :=
  (w.send x p d).deliver x.other d'

/-- `x` sends `p` and the other end answers with `q`: both arrive. -/
def Wire.Answered (w : Wire) (x : Side) (p q : Bytes) (d₁ d₂ d₃ d₄ : Draw) : Prop :=
  let w₁ := w.sendAndDeliver x p d₁ d₂
  let w₂ := w₁.sendAndDeliver x.other q d₃ d₄
  (w₁.ends x.other).inbox = (w.ends x.other).inbox ++ [p] ∧
    (w₂.ends x).inbox = (w₁.ends x).inbox ++ [q]

section Exchange

variable {w : Wire} {x : Side} {s : Session}

/-- The wire after a send over a session and the delivery of the message, when
nothing else was in flight from the sender. -/
theorem sendAndDeliver_eq (hs : (w.ends x).session = some s) (hwrap : s.sendNonce + 1 ≠ 0)
    (hq : w.queue x = []) (p : Bytes) (d d' : Draw) :
    w.sendAndDeliver x p d d' =
      { ends := Function.update
          (Function.update w.ends x
            { w.ends x with
              session := some (s.withSendNonce (s.sendNonce + 1))
              sealed := (w.ends x).sealed ++
                [(s.withSendNonce (s.sendNonce + 1)).sealing (packetTypeTraffic :: p)] })
          x.other ((w.ends x.other).onTraffic
            ((s.withSendNonce (s.sendNonce + 1)).sealTraffic (packetTypeTraffic :: p)) d').1
        queue := Function.update w.queue x.other (w.queue x.other ++
          ((w.ends x.other).onTraffic
            ((s.withSendNonce (s.sendNonce + 1)).sealTraffic (packetTypeTraffic :: p)) d').2) } := by
  have hsend : w.send x p d = w.act x
      ({ w.ends x with
          session := some (s.withSendNonce (s.sendNonce + 1))
          sealed := (w.ends x).sealed ++
            [(s.withSendNonce (s.sendNonce + 1)).sealing (packetTypeTraffic :: p)] },
        [.traffic ((s.withSendNonce (s.sendNonce + 1)).sealTraffic (packetTypeTraffic :: p))]) := by
    simp only [Wire.send, Endpoint.sendKind, hs, Endpoint.sendInner, Session.encrypt,
      Session.advanceNonce_of_ne hwrap]
  have hqueue : (w.send x p d).queue x.other.other =
      [.traffic ((s.withSendNonce (s.sendNonce + 1)).sealTraffic (packetTypeTraffic :: p))] := by
    rw [Side.other_other, hsend]
    simp [Wire.act, hq]
  rw [Wire.sendAndDeliver, Wire.deliver, hqueue, hsend]
  simp only [Wire.act, Side.other_other, Endpoint.receive, ne_eq, Side.other_ne,
    not_false_eq_true, Function.update_of_ne, Function.update_idem, Wire.mk.injEq, true_and]
  congr 1
  rw [← hq, Function.update_eq_self]

/-- The payload arrives, and rotates the receiver. -/
theorem BothAhead.payload_arrives (law : BoxRoundtrip) {t : Session} (h : BothAhead s t)
    (hs : (w.ends x).session = some s) (ht : (w.ends x.other).session = some t)
    (hquiet : w.Quiet) (p : Bytes) (d d' : Draw) :
    ∃ t', ((w.sendAndDeliver x p d d').ends x).session =
          some (s.withSendNonce (s.sendNonce + 1)) ∧
        ((w.sendAndDeliver x p d d').ends x).inbox = (w.ends x).inbox ∧
        ((w.sendAndDeliver x p d d').ends x.other).session = some t' ∧
        ((w.sendAndDeliver x p d d').ends x.other).inbox = (w.ends x.other).inbox ++ [p] ∧
        (w.sendAndDeliver x p d d').queue x.other = [] ∧
        t'.localKeySeq = 5 ∧ t'.remoteKeySeq = 4 ∧ t'.sendNonce = 0 := by
  have hwrap : s.sendNonce + 1 ≠ 0 := by
    rw [h.sendNonce]
    decide
  obtain ⟨t', hdecrypt, hkeys⟩ :=
    h.decrypt_first law (packetTypeTraffic :: p) d'.first d'.now
  refine ⟨t', ?_⟩
  rw [sendAndDeliver_eq hs hwrap (hquiet x) p d d']
  simp [Endpoint.onTraffic, ht, hdecrypt, Endpoint.deliver, hquiet x.other, hkeys]

end Exchange

/-- **A crossed open does not converge.** Whatever the interleaving, once nothing is
in flight a payload sent by either end arrives, and the reply to it does not. -/
theorem crossed_open_loses_reply (law : BoxRoundtrip) {w₀ w₁ w : Wire}
    (h : CrossedOpen w₀ w₁ w) (hroom : w.Room) (x : Side) (p q : Bytes) (d₁ d₂ d₃ d₄ : Draw) :
    ((w.sendAndDeliver x p d₁ d₂).ends x.other).inbox = (w.ends x.other).inbox ++ [p] ∧
      ¬ w.Answered x p q d₁ d₂ d₃ d₄ := by
  obtain ⟨s, t, hs, ht, hahead⟩ := h.bothAhead hroom x
  obtain ⟨t', hs', hinbox, ht', hinbox', hqueue, hlocal, hremote, hnonce⟩ :=
    hahead.payload_arrives law hs ht h.quiet p d₁ d₂
  refine ⟨hinbox', ?_⟩
  rintro ⟨-, hreply⟩
  have hwrap : t'.sendNonce + 1 ≠ 0 := by
    rw [hnonce]
    decide
  have hrefused := hahead.refuses_reply hlocal hremote (s.sendNonce + 1) (t'.sendNonce + 1)
    (packetTypeTraffic :: q)
  -- The reply is refused, so the inbox it should have grown is the one before.
  rw [sendAndDeliver_eq ht' hwrap hqueue q d₃ d₄] at hreply
  simp [Endpoint.onTraffic, hs', Session.decrypt, Session.decryptDue, hrefused] at hreply

/-- The wire after the deliveries `l`. -/
def Wire.play (w : Wire) : List (Side × Draw) → Wire
  | [] => w
  | (x, d) :: rest => (w.deliver x d).play rest

def Wire.playable (w : Wire) : List (Side × Draw) → Bool
  | [] => true
  | (x, d) :: rest => !(w.queue x.other).isEmpty && (w.deliver x d).playable rest

theorem delivers_play {w : Wire} {l : List (Side × Draw)} (h : w.playable l = true) :
    Relation.ReflTransGen Wire.Deliver w (w.play l) := by
  induction l generalizing w with
  | nil => exact .refl
  | cons m rest ih =>
    obtain ⟨x, d⟩ := m
    simp only [Wire.playable, Bool.and_eq_true, Bool.not_eq_true', List.isEmpty_eq_false_iff] at h
    exact .head (.mk w x d h.1) (ih h.2)

instance (w : Wire) (x : Side) (p q : Bytes) (d₁ d₂ d₃ d₄ : Draw) :
    Decidable (w.Answered x p q d₁ d₂ d₃ d₄) :=
  inferInstanceAs (Decidable (_ ∧ _))

end System

section Sample

local instance : Crypto := Sample.lenient

def sampleDraw (base : UInt8) : Draw := Draw.numbered base 1000

def sampleStart : Wire where
  ends := fun _ => Endpoint.fresh 0
  queue := fun _ => []

/-- Both ends send before either init arrives. -/
def sampleOpen : Wire := (sampleStart.send .a [7] (sampleDraw 10)).send .b [8] (sampleDraw 20)

/-- Init, ack, payload, repair and second ack in turn. -/
def sampleSchedule : List (Side × Draw) :=
  [(.b, sampleDraw 30), (.a, sampleDraw 40), (.b, sampleDraw 50), (.a, sampleDraw 60),
    (.b, sampleDraw 70), (.a, sampleDraw 80), (.b, sampleDraw 90), (.a, sampleDraw 100),
    (.b, sampleDraw 110), (.a, sampleDraw 120)]

def sampleRest : Wire := sampleOpen.play sampleSchedule

theorem sample_crossedOpen : CrossedOpen sampleStart sampleOpen sampleRest where
  start _ := ⟨rfl, fun b hb => by cases hb⟩
  empty _ := rfl
  sends := (Relation.ReflTransGen.single (.mk sampleStart .a [7] (sampleDraw 10))).tail
    (.mk _ .b [8] (sampleDraw 20))
  both x := by cases x <;> exact List.cons_ne_nil _ _
  delivers := delivers_play (by decide +kernel)
  quiet x := by
    rw [← List.isEmpty_iff]
    cases x <;> decide +kernel

theorem sample_room : sampleRest.Room := by
  intro x
  cases x <;> decide +kernel

/-- After the crossed open `a` sends a payload, which arrives, and the answer of `b`
is lost. -/
theorem crossed_reply_lost :
    CrossedOpen sampleStart sampleOpen sampleRest ∧
      ((sampleRest.sendAndDeliver .a [9] (sampleDraw 130) (sampleDraw 140)).ends .b).inbox =
        [[9]] ∧
      ¬ sampleRest.Answered .a [9] [10] (sampleDraw 130) (sampleDraw 140) (sampleDraw 150)
        (sampleDraw 160) :=
  ⟨sample_crossedOpen, by decide +kernel, by decide +kernel⟩

theorem crossed_open_loses_reply_sample :
    ¬ sampleRest.Answered .b [9] [10] (sampleDraw 130) (sampleDraw 140) (sampleDraw 150)
      (sampleDraw 160) :=
  (crossed_open_loses_reply Sample.boxRoundtrip sample_crossedOpen sample_room .b [9] [10] _ _ _
    _).2

end Sample

end Crossed

end Roots

import Roots.Crypto.Sample
import Roots.Session.Checked

/-!
# Roots.Session.KeySeq

The arithmetic of the key sequences. `apply_update`, `encrypt`, `maybe_rotate` and `decrypt` add
one with a plain `+`, to sequences that come from an init or from the header of a traffic message.
A build that checks its arithmetic panics where such a sum does not fit, and one that does not
takes a sequence of `2 ^ 64 - 1` to be followed by zero.

The functions of the first build (`Roots.Session.Checked`) agree with the others, and the choice of
the secret is the one of the integers, **exactly on the runs that leave room for every sum**
(`keySeq_exact_iff`). A run that stays short, with the sequences of its inits and headers away from
the end, does (`room_of_bounded`).
-/

namespace Roots

open Wire

section

variable [Crypto]

namespace Session

/-! ## The choice of the secret over the integers -/

/-- The three arms, with the sequences as integers. -/
def exactCase (s : Session) (rks lks nonce : UInt64) : Option Case :=
  if rks.toNat = s.remoteKeySeq.toNat ∧ lks.toNat + 1 = s.localKeySeq.toNat then
    if s.recvNonce < nonce then some .current else none
  else if rks.toNat = s.remoteKeySeq.toNat + 1 ∧ lks.toNat = s.localKeySeq.toNat then
    if s.nextSendNonce < nonce then some .nextSend else none
  else if rks.toNat = s.remoteKeySeq.toNat + 1 ∧ lks.toNat + 1 = s.localKeySeq.toNat then
    if s.nextRecvNonce < nonce then some .nextRecv else none
  else none

theorem trafficCase_eq_exactCase {s : Session} {lks : UInt64} (hremote : s.remoteKeySeq + 1 ≠ 0)
    (hlks : lks + 1 ≠ 0) (rks nonce : UInt64) :
    s.trafficCase rks lks nonce = s.exactCase rks lks nonce := by
  have hcurrent : rks = s.remoteKeySeq ↔ rks.toNat = s.remoteKeySeq.toNat :=
    UInt64.toNat_inj.symm
  have hnext : rks = s.remoteKeySeq + 1 ↔ rks.toNat = s.remoteKeySeq.toNat + 1 := by
    rw [← toNat_succ hremote, UInt64.toNat_inj]
  have hsend : lks = s.localKeySeq ↔ lks.toNat = s.localKeySeq.toNat := UInt64.toNat_inj.symm
  have hrecv : lks + 1 = s.localKeySeq ↔ lks.toNat + 1 = s.localKeySeq.toNat := by
    rw [← toNat_succ hlks, UInt64.toNat_inj]
  simp only [trafficCase, exactCase, hcurrent, hnext, hsend, hrecv]

/-! ## Runs -/

/-- What is done to a session. -/
inductive Event where
  | init (init : SessionInit) (ackSeq : UInt64) (fresh : BoxKeys)
  | ack (ack : SessionInit) (fresh : BoxKeys)
  | send (msg : Bytes) (fresh : BoxKeys)
  | receive (msg : Bytes) (fresh : BoxKeys) (now : Instant)

def take (s : Session) : Event → Session
  | .init init ackSeq fresh => (s.handleInit init ackSeq fresh).1
  | .ack ack fresh => s.handleAck ack fresh
  | .send msg fresh => (s.encrypt msg fresh).1
  | .receive msg fresh now => (s.decrypt msg fresh now).1

def takeChecked (s : Session) : Event → Option Session
  | .init init ackSeq fresh => (s.handleInitChecked init ackSeq fresh).map Prod.fst
  | .ack ack fresh => s.handleAckChecked ack fresh
  | .send msg fresh => (s.encryptChecked msg fresh).map Prod.fst
  | .receive msg fresh now => (s.decryptChecked msg fresh now).map Prod.fst

def run (s : Session) (events : List Event) : Session := events.foldl take s

def runChecked (s : Session) (events : List Event) : Option Session := events.foldlM takeChecked s

/-- `P` holds before every event of a run. -/
def Along (s : Session) (P : Session → Event → Prop) : List Event → Prop
  | [] => True
  | event :: events => P s event ∧ (s.take event).Along P events

/-- Every sum of the call fits: the sequence that grows is not the last one. -/
def Room (s : Session) : Event → Prop
  | .init init _ _ => s.seq < init.seq → s.localKeySeq + 1 ≠ 0
  | .ack ack _ => s.seq < ack.seq → s.localKeySeq + 1 ≠ 0
  | .send _ _ => s.sendNonce + 1 = 0 → s.localKeySeq + 1 ≠ 0
  | .receive msg _ now => ∀ t, parseTraffic msg = some t →
      s.remoteKeySeq + 1 ≠ 0 ∧ t.lks + 1 ≠ 0 ∧
        (s.OpensNextRecv t → s.rotationDue now → s.localKeySeq + 1 ≠ 0)

/-- `decrypt` chooses the secret that the integers say. -/
def Chooses (s : Session) : Event → Prop
  | .receive msg _ _ => ∀ t, parseTraffic msg = some t →
      s.trafficCase t.rks t.lks t.nonce = s.exactCase t.rks t.lks t.nonce
  | _ => True

/-! ## One event -/

variable {s : Session}

/-- The step lemma: a call goes through exactly when there is room. -/
theorem takeChecked_of_room {event : Event} (h : s.Room event) :
    s.takeChecked event = some (s.take event) := by
  cases event with
  | init init ackSeq fresh =>
    have hroom : ¬ (s.seq < init.seq ∧ s.localKeySeq + 1 = 0) := fun hfull => h hfull.1 hfull.2
    simp only [takeChecked, take, handleInitChecked_eq, if_neg hroom, Option.map_some]
  | ack ack fresh =>
    have hroom : ¬ (s.seq < ack.seq ∧ s.localKeySeq + 1 = 0) := fun hfull => h hfull.1 hfull.2
    simp only [takeChecked, take, handleAckChecked_eq, if_neg hroom]
  | send msg fresh =>
    have hroom : ¬ (s.sendNonce + 1 = 0 ∧ s.localKeySeq + 1 = 0) := fun hfull => h hfull.1 hfull.2
    simp only [takeChecked, take, encryptChecked_eq, if_neg hroom, Option.map_some]
  | receive msg fresh now =>
    simp only [takeChecked, take, decryptChecked_of_fits h, Option.map_some]

theorem takeChecked_of_not_room {event : Event} (h : ¬ s.Room event) :
    s.takeChecked event = none := by
  cases event with
  | init init ackSeq fresh =>
    have hfull : s.seq < init.seq ∧ s.localKeySeq + 1 = 0 := by simpa [Room] using h
    simp only [takeChecked, handleInitChecked_eq, if_pos hfull, Option.map_none]
  | ack ack fresh =>
    have hfull : s.seq < ack.seq ∧ s.localKeySeq + 1 = 0 := by simpa [Room] using h
    simp only [takeChecked, handleAckChecked_eq, if_pos hfull]
  | send msg fresh =>
    have hfull : s.sendNonce + 1 = 0 ∧ s.localKeySeq + 1 = 0 := by simpa [Room] using h
    simp only [takeChecked, encryptChecked_eq, if_pos hfull, Option.map_none]
  | receive msg fresh now =>
    simp only [takeChecked, decryptChecked_of_not_fits h, Option.map_none]

theorem chooses_of_room {event : Event} (h : s.Room event) : s.Chooses event := by
  cases event with
  | receive msg fresh now =>
    intro t hparse
    obtain ⟨hremote, hlks, -⟩ := h t hparse
    exact trafficCase_eq_exactCase hremote hlks t.rks t.nonce
  | init | ack | send => trivial

/-! ## Whole runs -/

theorem runChecked_cons (s : Session) (event : Event) (events : List Event) :
    s.runChecked (event :: events) = (s.takeChecked event).bind fun s' => s'.runChecked events :=
  rfl

/-- A build that checks gets to the end of a run exactly when there is room all along. -/
theorem runChecked_eq_iff (s : Session) (events : List Event) :
    s.runChecked events = some (s.run events) ↔ s.Along Room events := by
  induction events generalizing s with
  | nil => exact ⟨fun _ => trivial, fun _ => rfl⟩
  | cons event events ih =>
    rw [runChecked_cons]
    by_cases hroom : s.Room event
    · rw [takeChecked_of_room hroom]
      exact (ih (s.take event)).trans (and_iff_right hroom).symm
    · rw [takeChecked_of_not_room hroom]
      constructor
      · intro h
        cases h
      · intro h
        exact absurd h.1 hroom

theorem Along.mono {P Q : Session → Event → Prop} (hPQ : ∀ s event, P s event → Q s event)
    {events : List Event} (h : s.Along P events) : s.Along Q events := by
  induction events generalizing s with
  | nil => trivial
  | cons event events ih => exact ⟨hPQ _ _ h.1, ih h.2⟩

/-- **The key sequences are exact where there is room.** Whatever the session and whatever
happens to it: every sum fits and every message is opened with the secret that the integers say
exactly when, before each event, the sequence that the event adds to is not the last one. -/
theorem keySeq_exact_iff (s : Session) (events : List Event) :
    s.runChecked events = some (s.run events) ∧ s.Along Chooses events ↔
      s.Along Room events := by
  rw [runChecked_eq_iff]
  exact and_iff_left_of_imp fun h => h.mono fun _ _ => chooses_of_room

/-! ## Runs that stay short -/

/-- An init or ack announces a sequence up to `bound`, and a header does not name the last one. -/
def Event.Modest (bound : Nat) : Event → Prop
  | .init i _ _ => i.keySeq.toNat ≤ bound
  | .ack i _ => i.keySeq.toNat ≤ bound
  | .send _ _ => True
  | .receive msg _ _ => ∀ t, parseTraffic msg = some t → t.lks + 1 ≠ 0

/-- The sequences after `n` events. -/
structure Within (bound n : Nat) (s : Session) : Prop where
  own : s.localKeySeq.toNat ≤ n
  remote : s.remoteKeySeq.toNat ≤ bound + n

namespace Within

variable {bound n : Nat}

theorem later (h : Within bound n s) : Within bound (n + 1) s :=
  ⟨h.own.trans (Nat.le_succ n), h.remote.trans (Nat.le_succ (bound + n))⟩

theorem remote_maybeRotate (h : Within bound n s) (due : Bool) (innerKey : Key) (nonce : UInt64)
    (fresh : BoxKeys) (now : Instant) :
    (s.maybeRotate due innerKey nonce fresh now).remoteKeySeq.toNat ≤ bound + (n + 1) := by
  unfold Session.maybeRotate
  split_ifs
  · exact (toNat_succ_le _).trans (Nat.succ_le_succ h.remote)
  · exact h.later.remote

theorem remote_decrypt (h : Within bound n s) (msg : Bytes) (fresh : BoxKeys) (now : Instant) :
    (s.decrypt msg fresh now).1.remoteKeySeq.toNat ≤ bound + (n + 1) := by
  unfold Session.decrypt Session.decryptDue
  cases s.openTraffic msg with
  | none => exact h.later.remote
  | some opened =>
    obtain ⟨case, nonce, innerKey, payload⟩ := opened
    cases case with
    | current => exact h.later.remote
    | nextSend => exact remote_maybeRotate (s := s.withNextSendNonce nonce) ⟨h.own, h.remote⟩ _ _ _ _ _
    | nextRecv => exact remote_maybeRotate (s := s.withNextRecvNonce nonce) ⟨h.own, h.remote⟩ _ _ _ _ _

theorem remote_encrypt (h : Within bound n s) (msg : Bytes) (fresh : BoxKeys) :
    (s.encrypt msg fresh).1.remoteKeySeq.toNat ≤ bound + (n + 1) := by
  unfold Session.encrypt Session.advanceNonce
  dsimp only
  split_ifs <;> exact h.later.remote

/-- The step lemma: an event adds at most one to either sequence. -/
theorem take (h : Within bound n s) {event : Event} (hmodest : event.Modest bound) :
    Within bound (n + 1) (s.take event) := by
  have hstep := Nat.succ_le_succ h.own
  cases event with
  | init init ackSeq fresh =>
    refine ⟨(s.toNat_localKeySeq_handleInit_le fresh init ackSeq).trans hstep, ?_⟩
    simp only [Session.take, handleInit]
    split_ifs
    · exact h.later.remote
    · exact le_add_right hmodest
  | ack ack fresh =>
    refine ⟨(s.toNat_localKeySeq_handleAck_le fresh ack).trans hstep, ?_⟩
    simp only [Session.take, handleAck]
    split_ifs
    · exact h.later.remote
    · exact le_add_right hmodest
  | send msg fresh =>
    exact ⟨(s.toNat_localKeySeq_encrypt_le fresh msg).trans hstep, h.remote_encrypt msg fresh⟩
  | receive msg fresh now =>
    exact ⟨(s.toNat_localKeySeq_decrypt_le fresh now msg).trans hstep, h.remote_decrypt msg fresh now⟩

theorem room (h : Within bound n s) {event : Event} (hmodest : event.Modest bound)
    (hsmall : bound + n + 1 < 2 ^ 64) : s.Room event := by
  have hown : s.localKeySeq + 1 ≠ 0 := succ_ne_zero (by have := h.own; omega)
  have hremote : s.remoteKeySeq + 1 ≠ 0 := succ_ne_zero (by have := h.remote; omega)
  cases event with
  | receive msg fresh now =>
    intro t hparse
    exact ⟨hremote, hmodest t hparse, fun _ _ => hown⟩
  | init | ack | send => exact fun _ => hown

/-- The run lemma. -/
theorem along_room (h : Within bound n s) {events : List Event}
    (hmodest : ∀ event ∈ events, event.Modest bound)
    (hsmall : bound + n + events.length < 2 ^ 64) : s.Along Room events := by
  induction events generalizing n s with
  | nil => trivial
  | cons event events ih =>
    rw [List.length_cons] at hsmall
    have hevent := hmodest event List.mem_cons_self
    refine ⟨h.room hevent (by omega), ih (h.take hevent) ?_ (by omega)⟩
    intro later hlater
    exact hmodest later (List.mem_cons_of_mem _ hlater)

end Within

/-- A run that is shorter than what is left above the announced sequences has room all along. -/
theorem room_of_bounded (init : SessionInit) (recv send next : BoxKeys) {bound : Nat}
    {events : List Event} (hmodest : ∀ event ∈ events, event.Modest bound)
    (hsmall : bound + events.length < 2 ^ 64) :
    (forInit init recv send next).Along Room events :=
  Within.along_room (s := forInit init recv send next) (n := 0) ⟨Nat.le_refl 0, Nat.zero_le _⟩
    hmodest hsmall

end Session

end

/-! ## A sequence that is the last one -/

section Sample

local instance wrapping : Crypto := Sample.lenient

/-- The `n`th key pair. -/
def nthKeys (n : UInt8) : BoxKeys := freshBox (Sample.smallKey n)

/-- An init that announces the key sequence `n`. -/
def initWith (n : UInt64) : SessionInit where
  current := (nthKeys 1).pub
  next := (nthKeys 2).pub
  keySeq := n
  seq := 5

/-- The session that an init opens. -/
def openedBy (init : SessionInit) : Session := Session.forInit init (nthKeys 3) (nthKeys 4) (nthKeys 5)

/-- Traffic with a readable header and nothing in its box. -/
def header (rks lks nonce : UInt64) : Bytes :=
  sessionTypeTraffic :: (uvarint rks ++ (uvarint lks ++ (uvarint nonce ++ List.replicate 48 0)))

/-- A header with the last sequence overflows in a session that an ordinary init has opened. So
does any header after an init with the last sequence; without the check a header of sequence zero
is then taken for the one that follows it. -/
theorem keySeq_overflows :
    ((openedBy (initWith 0)).runChecked [.init (initWith 0) 6 (nthKeys 6),
        .receive (header 0 18446744073709551615 1) (nthKeys 7) 0]).isNone ∧
      ((openedBy (initWith 18446744073709551615)).runChecked
        [.init (initWith 18446744073709551615) 6 (nthKeys 6),
          .receive (header 0 1 1) (nthKeys 7) 0]).isNone ∧
      ((openedBy (initWith 18446744073709551615)).run
        [.init (initWith 18446744073709551615) 6 (nthKeys 6)]).trafficCase 0 1 1 =
          some .nextSend ∧
      ((openedBy (initWith 18446744073709551615)).run
        [.init (initWith 18446744073709551615) 6 (nthKeys 6)]).exactCase 0 1 1 = none := by
  decide +kernel

end Sample

end Roots

import Roots.Session.Basic

/-!
# Roots.Session.Checked

The session functions in a build that checks its arithmetic. `apply_update`, `encrypt`,
`maybe_rotate` and `decrypt` add one to a key sequence with a plain `+`, which panics where the
sum does not fit; the functions of `Roots.Session.Basic` wrap there, as a release build does.

`none` is the panic. Otherwise **the result is that of the wrapping function**, so what is known of
the one is known of the other. The sums of `decrypt` are over numbers that come off the wire and
are done before anything is authenticated (`headerFull`); the local key sequence only counts the
key moves of its own end.
-/

namespace Roots

open Wire

/-! ## One more -/

/-- `n + 1` of a build that checks it. -/
def checkedSucc (n : UInt64) : Option UInt64 :=
  if n + 1 = 0 then none else some (n + 1)

theorem toNat_succ {n : UInt64} (h : n + 1 ≠ 0) : (n + 1).toNat = n.toNat + 1 := by
  have hlt := n.toNat_lt
  have hadd : (n + 1).toNat = (n.toNat + 1) % 2 ^ 64 := UInt64.toNat_add n 1
  have hne : (n + 1).toNat ≠ 0 := fun hzero => h (UInt64.toNat_inj.mp hzero)
  omega

theorem toNat_succ_le (n : UInt64) : (n + 1).toNat ≤ n.toNat + 1 := by
  rw [UInt64.toNat_add]
  exact Nat.mod_le _ _

theorem succ_ne_zero {n : UInt64} (h : n.toNat + 1 < 2 ^ 64) : n + 1 ≠ 0 := by
  intro hzero
  have hadd : (n + 1).toNat = (n.toNat + 1) % 2 ^ 64 := UInt64.toNat_add n 1
  rw [hzero, Nat.mod_eq_of_lt h] at hadd
  cases hadd

theorem right_of_ite_eq_none {α : Type*} {p q : Prop} [Decidable (p ∧ q)] {a : α}
    (h : (if p ∧ q then none else some a) = none) : q := by
  by_contra hq
  cases (if_neg fun hpq : p ∧ q => hq hpq.2).symm.trans h

section

variable [Crypto]

namespace Session

/-! ## The checked functions -/

def shiftKeysChecked (s : Session) (current next : Key) (fresh : BoxKeys)
    (recvNonce sendNonce : UInt64) : Option Session := do
  let localKeySeq ← checkedSucc s.localKeySeq
  return { s with localKeySeq }.fixShared current next s.send s.nextKeys fresh recvNonce sendNonce

def applyUpdateChecked (s : Session) (init : SessionInit) (fresh : BoxKeys) : Option Session :=
  { s with seq := init.seq, remoteKeySeq := init.keySeq }.shiftKeysChecked init.current init.next
    fresh 0 s.sendNonce

def handleInitChecked (s : Session) (init : SessionInit) (ackSeq : UInt64) (fresh : BoxKeys) :
    Option (Session × Option SessionInit) :=
  if init.seq ≤ s.seq then some (s, none)
  else do
    let s' ← s.applyUpdateChecked init fresh
    return (s', some (s'.makeInit ackSeq))

def handleAckChecked (s : Session) (ack : SessionInit) (fresh : BoxKeys) : Option Session :=
  if ack.seq ≤ s.seq then some s else s.applyUpdateChecked ack fresh

/-- The counter of messages is a `wrapping_add` and not checked. -/
def advanceNonceChecked (s : Session) (fresh : BoxKeys) : Option Session :=
  if s.sendNonce + 1 = 0 then s.shiftKeysChecked s.current s.next fresh 0 0
  else some (s.withSendNonce (s.sendNonce + 1))

def encryptChecked (s : Session) (msg : Bytes) (fresh : BoxKeys) : Option (Session × Bytes) := do
  let s' ← s.advanceNonceChecked fresh
  return (s', s'.sealTraffic msg)

/-- Both sums are computed before an arm is chosen. -/
def trafficCaseChecked (s : Session) (rks lks nonce : UInt64) : Option (Option Case) := do
  let fromNext ← checkedSucc s.remoteKeySeq
  let toRecv ← checkedSucc lks
  return if rks = s.remoteKeySeq ∧ toRecv = s.localKeySeq then
      if s.recvNonce < nonce then some .current else none
    else if rks = fromNext ∧ lks = s.localKeySeq then
      if s.nextSendNonce < nonce then some .nextSend else none
    else if rks = fromNext ∧ toRecv = s.localKeySeq then
      if s.nextRecvNonce < nonce then some .nextRecv else none
    else none

def rotateChecked (s : Session) (innerKey : Key) (nonce : UInt64) (fresh : BoxKeys)
    (now : Instant) : Option Session := do
  let remoteKeySeq ← checkedSucc s.remoteKeySeq
  let s' ← { s with remoteKeySeq }.shiftKeysChecked s.next innerKey fresh nonce 0
  return { s' with rotatedAt := some now }

def maybeRotateChecked (s : Session) (due : Bool) (innerKey : Key) (nonce : UInt64)
    (fresh : BoxKeys) (now : Instant) : Option Session :=
  if due then s.rotateChecked innerKey nonce fresh now else some s

def acceptChecked (s : Session) (due : Bool) (case : Case) (innerKey : Key) (nonce : UInt64)
    (fresh : BoxKeys) (now : Instant) : Option Session :=
  match case with
  | .current => some (s.withRecvNonce nonce)
  | .nextSend => (s.withNextSendNonce nonce).maybeRotateChecked due innerKey nonce fresh now
  | .nextRecv => (s.withNextRecvNonce nonce).maybeRotateChecked due innerKey nonce fresh now

/-- What the secret of an arm opens: the inner key and the payload. -/
def openWith (s : Session) (t : Traffic) (case : Case) : Option (Key × Bytes) := do
  let opened ← boxOpen (s.sharedOf case) t.nonce t.body
  let innerKey ← arrayOf keyLen (opened.take 32)
  return (innerKey, opened.drop 32)

def decryptChecked (s : Session) (msg : Bytes) (fresh : BoxKeys) (now : Instant) :
    Option (Session × Option Bytes) :=
  match parseTraffic msg with
  | none => some (s, none)
  | some t => do
      match ← s.trafficCaseChecked t.rks t.lks t.nonce with
      | none => return (s, none)
      | some case =>
          match s.openWith t case with
          | none => return (s, none)
          | some (innerKey, payload) =>
              let s' ← s.acceptChecked (s.rotationDue now) case innerKey t.nonce fresh now
              return (s', some payload)

/-- The message fits the arm of `next_recv` and opens there. -/
def OpensNextRecv (s : Session) (t : Traffic) : Prop :=
  t.rks = s.remoteKeySeq + 1 ∧ t.lks + 1 = s.localKeySeq ∧ s.nextRecvNonce < t.nonce ∧
    (s.openWith t .nextRecv).isSome

/-- Every sum of `decrypt` on a message fits. -/
def Fits (s : Session) (msg : Bytes) (now : Instant) : Prop :=
  ∀ t, parseTraffic msg = some t →
    s.remoteKeySeq + 1 ≠ 0 ∧ t.lks + 1 ≠ 0 ∧
      (s.OpensNextRecv t → s.rotationDue now → s.localKeySeq + 1 ≠ 0)

/-- A sum of `decrypt` over the header of a message, or over the key sequence that the peer has
announced, does not fit. -/
def headerFull (s : Session) (msg : Bytes) : Bool :=
  match parseTraffic msg with
  | none => false
  | some t => s.remoteKeySeq + 1 = 0 ∨ t.lks + 1 = 0

/-- A session in which only the local key sequence is another one. -/
def withLocalKeySeq (s : Session) (n : UInt64) : Session := { s with localKeySeq := n }

/-! ## When they panic -/

variable {s : Session}

theorem shiftKeysChecked_eq (s : Session) (current next : Key) (fresh : BoxKeys)
    (recvNonce sendNonce : UInt64) :
    s.shiftKeysChecked current next fresh recvNonce sendNonce =
      if s.localKeySeq + 1 = 0 then none
      else some (s.shiftKeys current next fresh recvNonce sendNonce) := by
  unfold shiftKeysChecked checkedSucc
  split_ifs <;> rfl

theorem applyUpdateChecked_eq (s : Session) (init : SessionInit) (fresh : BoxKeys) :
    s.applyUpdateChecked init fresh =
      if s.localKeySeq + 1 = 0 then none else some (s.applyUpdate init fresh) :=
  shiftKeysChecked_eq _ _ _ _ _ _

theorem handleInitChecked_eq (s : Session) (init : SessionInit) (ackSeq : UInt64)
    (fresh : BoxKeys) :
    s.handleInitChecked init ackSeq fresh =
      if s.seq < init.seq ∧ s.localKeySeq + 1 = 0 then none
      else some (s.handleInit init ackSeq fresh) := by
  unfold handleInitChecked handleInit
  rw [applyUpdateChecked_eq]
  by_cases hold : init.seq ≤ s.seq
  · simp [hold]
  · by_cases hlast : s.localKeySeq + 1 = 0 <;> simp [hold, hlast, UInt64.not_le.mp hold]

theorem handleAckChecked_eq (s : Session) (ack : SessionInit) (fresh : BoxKeys) :
    s.handleAckChecked ack fresh =
      if s.seq < ack.seq ∧ s.localKeySeq + 1 = 0 then none else some (s.handleAck ack fresh) := by
  unfold handleAckChecked handleAck
  rw [applyUpdateChecked_eq]
  by_cases hold : ack.seq ≤ s.seq
  · simp [hold]
  · by_cases hlast : s.localKeySeq + 1 = 0 <;> simp [hold, hlast, UInt64.not_le.mp hold]

theorem encryptChecked_eq (s : Session) (msg : Bytes) (fresh : BoxKeys) :
    s.encryptChecked msg fresh =
      if s.sendNonce + 1 = 0 ∧ s.localKeySeq + 1 = 0 then none else some (s.encrypt msg fresh) := by
  unfold encryptChecked encrypt advanceNonceChecked advanceNonce
  rw [shiftKeysChecked_eq]
  by_cases hwrap : s.sendNonce + 1 = 0
  · by_cases hlast : s.localKeySeq + 1 = 0 <;> simp [hwrap, hlast]
  · simp [hwrap]

theorem rotateChecked_eq (hremote : s.remoteKeySeq + 1 ≠ 0) (innerKey : Key) (nonce : UInt64)
    (fresh : BoxKeys) (now : Instant) :
    s.rotateChecked innerKey nonce fresh now =
      if s.localKeySeq + 1 = 0 then none else some (s.rotate innerKey nonce fresh now) := by
  unfold rotateChecked checkedSucc
  rw [if_neg hremote]
  simp only [shiftKeysChecked_eq, Option.bind_eq_bind, Option.bind_some]
  split_ifs <;> rfl

theorem trafficCaseChecked_eq {lks : UInt64} (hremote : s.remoteKeySeq + 1 ≠ 0)
    (hlks : lks + 1 ≠ 0) (rks nonce : UInt64) :
    s.trafficCaseChecked rks lks nonce = some (s.trafficCase rks lks nonce) := by
  unfold trafficCaseChecked checkedSucc
  rw [if_neg hremote, if_neg hlks]
  rfl

theorem trafficCaseChecked_eq_none {lks : UInt64}
    (h : s.remoteKeySeq + 1 = 0 ∨ lks + 1 = 0) (rks nonce : UInt64) :
    s.trafficCaseChecked rks lks nonce = none := by
  unfold trafficCaseChecked checkedSucc
  rcases h with hremote | hlks
  · rw [if_pos hremote]
    rfl
  · rw [if_pos hlks]
    split_ifs <;> rfl

theorem trafficCase_eq_nextRecv_iff {rks lks nonce : UInt64} :
    s.trafficCase rks lks nonce = some .nextRecv ↔
      rks = s.remoteKeySeq + 1 ∧ lks + 1 = s.localKeySeq ∧ s.nextRecvNonce < nonce := by
  have hremote : s.remoteKeySeq ≠ s.remoteKeySeq + 1 := by grind
  have hlks : lks ≠ lks + 1 := by grind
  unfold trafficCase
  split_ifs <;> grind

theorem lks_of_trafficCase_nextSend {rks lks nonce : UInt64}
    (h : s.trafficCase rks lks nonce = some .nextSend) : lks = s.localKeySeq := by
  unfold trafficCase at h
  split_ifs at h <;> grind

/-- `openTraffic` by its parts. -/
theorem openTraffic_eq {msg : Bytes} {t : Traffic} (hparse : parseTraffic msg = some t) :
    s.openTraffic msg = (s.trafficCase t.rks t.lks t.nonce).bind fun case =>
      (s.openWith t case).map fun opened => (case, t.nonce, opened) := by
  unfold openTraffic openWith
  simp only [hparse, Option.bind_eq_bind, Option.bind_some]
  cases s.trafficCase t.rks t.lks t.nonce with
  | none => rfl
  | some case =>
    simp only [Option.bind_some]
    cases boxOpen (s.sharedOf case) t.nonce t.body with
    | none => rfl
    | some opened =>
      simp only [Option.bind_some]
      cases arrayOf keyLen (opened.take 32) <;> rfl

/-- A message that is taken in adds to the sequences only in a `next` arm, when a rotation is
due. -/
theorem acceptChecked_eq {case : Case} {due : Bool}
    (hremote : s.remoteKeySeq + 1 ≠ 0)
    (hroom : case = .current ∨ due = false ∨ s.localKeySeq + 1 ≠ 0) (innerKey : Key)
    (nonce : UInt64) (fresh : BoxKeys) (now : Instant) :
    s.acceptChecked due case innerKey nonce fresh now =
      some (s.accept due case innerKey nonce fresh now) := by
  cases case with
  | current => rfl
  | nextSend =>
    cases due with
    | false => rfl
    | true =>
      have hlocal : s.localKeySeq + 1 ≠ 0 := by simpa using hroom
      exact (rotateChecked_eq (s := s.withNextSendNonce nonce) hremote _ _ _ _).trans
        (if_neg hlocal)
  | nextRecv =>
    cases due with
    | false => rfl
    | true =>
      have hlocal : s.localKeySeq + 1 ≠ 0 := by simpa using hroom
      exact (rotateChecked_eq (s := s.withNextRecvNonce nonce) hremote _ _ _ _).trans
        (if_neg hlocal)

theorem decryptChecked_of_fits {msg : Bytes} {now : Instant} (h : s.Fits msg now)
    (fresh : BoxKeys) :
    s.decryptChecked msg fresh now = some (s.decrypt msg fresh now) := by
  unfold decryptChecked decrypt decryptDue
  cases hparse : parseTraffic msg with
  | none =>
    have hopen : s.openTraffic msg = none := by
      unfold openTraffic
      rw [hparse]
      rfl
    rw [hopen]
  | some t =>
    obtain ⟨hremote, hlks, hrotates⟩ := h t hparse
    rw [openTraffic_eq hparse]
    simp only [trafficCaseChecked_eq hremote hlks, Option.bind_eq_bind, Option.bind_some]
    cases hcase : s.trafficCase t.rks t.lks t.nonce with
    | none => rfl
    | some case =>
      simp only [Option.bind_some]
      cases hopen : s.openWith t case with
      | none => rfl
      | some opened =>
        have hroom : case = .current ∨ s.rotationDue now = false ∨ s.localKeySeq + 1 ≠ 0 := by
          cases case with
          | current => exact .inl rfl
          | nextSend => exact .inr (.inr (lks_of_trafficCase_nextSend hcase ▸ hlks))
          | nextRecv =>
            obtain ⟨hrks, hrecv, hnonce⟩ := trafficCase_eq_nextRecv_iff.mp hcase
            cases hdue : s.rotationDue now with
            | false => exact .inr (.inl rfl)
            | true =>
              exact .inr (.inr (hrotates ⟨hrks, hrecv, hnonce, by rw [hopen]; rfl⟩ hdue))
        simp only [Option.map_some, acceptChecked_eq hremote hroom, Option.bind_some]
        rfl

theorem decryptChecked_of_not_fits {msg : Bytes} {now : Instant} (h : ¬ s.Fits msg now)
    (fresh : BoxKeys) : s.decryptChecked msg fresh now = none := by
  simp only [Fits, not_forall] at h
  obtain ⟨t, hparse, hfull⟩ := h
  unfold decryptChecked
  rw [hparse]
  by_cases hsums : s.remoteKeySeq + 1 = 0 ∨ t.lks + 1 = 0
  · simp only [trafficCaseChecked_eq_none hsums]
    rfl
  · obtain ⟨hremote, hlks⟩ := not_or.mp hsums
    have hrotates : s.OpensNextRecv t ∧ s.rotationDue now = true ∧ s.localKeySeq + 1 = 0 := by
      simpa [hremote, hlks] using hfull
    obtain ⟨⟨hrks, hrecv, hnonce, hopens⟩, hdue, hlast⟩ := hrotates
    obtain ⟨opened, hopen⟩ := Option.isSome_iff_exists.mp hopens
    have hcase : s.trafficCase t.rks t.lks t.nonce = some .nextRecv :=
      trafficCase_eq_nextRecv_iff.mpr ⟨hrks, hrecv, hnonce⟩
    have haccept : s.acceptChecked true .nextRecv opened.1 t.nonce fresh now = none :=
      (rotateChecked_eq (s := s.withNextRecvNonce t.nonce) hremote _ _ _ _).trans (if_pos hlast)
    simp only [trafficCaseChecked_eq hremote hlks, hcase, hopen, hdue, haccept,
      Option.bind_eq_bind, Option.bind_some, Option.bind_none]

/-! ## What a result tells -/

theorem headerFull_eq_true {msg : Bytes} :
    s.headerFull msg = true ↔
      ∃ t, parseTraffic msg = some t ∧ (s.remoteKeySeq + 1 = 0 ∨ t.lks + 1 = 0) := by
  unfold headerFull
  cases parseTraffic msg <;> simp

theorem decryptChecked_of_headerFull {msg : Bytes} (h : s.headerFull msg = true) (fresh : BoxKeys)
    (now : Instant) : s.decryptChecked msg fresh now = none := by
  obtain ⟨t, hparse, hfull⟩ := headerFull_eq_true.mp h
  refine decryptChecked_of_not_fits (fun hfits => ?_) fresh
  obtain ⟨hremote, hlks, -⟩ := hfits t hparse
  exact hfull.elim hremote hlks

/-- The result of `decrypt` is that of the wrapping one. Without a result, a sum over the header
does not fit, or the local key sequence is at its end. -/
theorem decryptChecked_cases (s : Session) (msg : Bytes) (fresh : BoxKeys) (now : Instant) :
    s.decryptChecked msg fresh now = some (s.decrypt msg fresh now) ∨
      s.decryptChecked msg fresh now = none ∧
        (s.headerFull msg = true ∨ s.localKeySeq + 1 = 0) := by
  by_cases hfits : s.Fits msg now
  · exact .inl (decryptChecked_of_fits hfits fresh)
  · refine .inr ⟨decryptChecked_of_not_fits hfits fresh, ?_⟩
    simp only [Fits, not_forall] at hfits
    obtain ⟨t, hparse, hfull⟩ := hfits
    by_cases hsums : s.remoteKeySeq + 1 = 0 ∨ t.lks + 1 = 0
    · exact .inl (headerFull_eq_true.mpr ⟨t, hparse, hsums⟩)
    · obtain ⟨hremote, hlks⟩ := not_or.mp hsums
      have hlast : s.OpensNextRecv t ∧ s.rotationDue now = true ∧ s.localKeySeq + 1 = 0 := by
        simpa [hremote, hlks] using hfull
      exact .inr hlast.2.2

theorem eq_of_decryptChecked {msg : Bytes} {fresh : BoxKeys} {now : Instant}
    {r : Session × Option Bytes} (h : s.decryptChecked msg fresh now = some r) :
    r = s.decrypt msg fresh now := by
  rcases s.decryptChecked_cases msg fresh now with hsome | ⟨hnone, -⟩
  · exact Option.some.inj (h.symm.trans hsome)
  · cases h.symm.trans hnone

theorem last_of_decryptChecked {msg : Bytes} {fresh : BoxKeys} {now : Instant}
    (h : s.decryptChecked msg fresh now = none) : s.headerFull msg = true ∨ s.localKeySeq + 1 = 0 := by
  rcases s.decryptChecked_cases msg fresh now with hsome | ⟨-, hlast⟩
  · cases h.symm.trans hsome
  · exact hlast

theorem eq_of_encryptChecked {msg : Bytes} {fresh : BoxKeys} {r : Session × Bytes}
    (h : s.encryptChecked msg fresh = some r) : r = s.encrypt msg fresh := by
  rw [encryptChecked_eq] at h
  split at h <;> cases h
  rfl

theorem last_of_encryptChecked {msg : Bytes} {fresh : BoxKeys}
    (h : s.encryptChecked msg fresh = none) : s.localKeySeq + 1 = 0 := by
  rw [encryptChecked_eq] at h
  exact right_of_ite_eq_none h

theorem encryptChecked_of_ne (h : s.localKeySeq + 1 ≠ 0) (msg : Bytes) (fresh : BoxKeys) :
    s.encryptChecked msg fresh = some (s.encrypt msg fresh) := by
  rw [encryptChecked_eq, if_neg fun hfull => h hfull.2]

theorem eq_of_handleInitChecked {init : SessionInit} {ackSeq : UInt64} {fresh : BoxKeys}
    {r : Session × Option SessionInit} (h : s.handleInitChecked init ackSeq fresh = some r) :
    r = s.handleInit init ackSeq fresh := by
  rw [handleInitChecked_eq] at h
  split at h <;> cases h
  rfl

theorem last_of_handleInitChecked {init : SessionInit} {ackSeq : UInt64} {fresh : BoxKeys}
    (h : s.handleInitChecked init ackSeq fresh = none) : s.localKeySeq + 1 = 0 := by
  rw [handleInitChecked_eq] at h
  exact right_of_ite_eq_none h

theorem handleInitChecked_of_ne (h : s.localKeySeq + 1 ≠ 0) (init : SessionInit) (ackSeq : UInt64)
    (fresh : BoxKeys) :
    s.handleInitChecked init ackSeq fresh = some (s.handleInit init ackSeq fresh) := by
  rw [handleInitChecked_eq, if_neg fun hfull => h hfull.2]

theorem eq_of_handleAckChecked {ack : SessionInit} {fresh : BoxKeys} {s' : Session}
    (h : s.handleAckChecked ack fresh = some s') : s' = s.handleAck ack fresh := by
  rw [handleAckChecked_eq] at h
  split at h <;> cases h
  rfl

theorem last_of_handleAckChecked {ack : SessionInit} {fresh : BoxKeys}
    (h : s.handleAckChecked ack fresh = none) : s.localKeySeq + 1 = 0 := by
  rw [handleAckChecked_eq] at h
  exact right_of_ite_eq_none h

theorem handleAckChecked_of_ne (h : s.localKeySeq + 1 ≠ 0) (ack : SessionInit) (fresh : BoxKeys) :
    s.handleAckChecked ack fresh = some (s.handleAck ack fresh) := by
  rw [handleAckChecked_eq, if_neg fun hfull => h hfull.2]

/-! ## The local key sequence -/

section Counts

variable (s) (fresh : BoxKeys) (now : Instant)

theorem toNat_localKeySeq_handleAck_le (ack : SessionInit) :
    (s.handleAck ack fresh).localKeySeq.toNat ≤ s.localKeySeq.toNat + 1 := by
  unfold handleAck
  split_ifs
  · exact Nat.le_succ _
  · exact toNat_succ_le _

theorem toNat_localKeySeq_handleInit_le (init : SessionInit) (ackSeq : UInt64) :
    (s.handleInit init ackSeq fresh).1.localKeySeq.toNat ≤ s.localKeySeq.toNat + 1 := by
  unfold handleInit
  split_ifs
  · exact Nat.le_succ _
  · exact toNat_succ_le _

theorem toNat_localKeySeq_encrypt_le (msg : Bytes) :
    (s.encrypt msg fresh).1.localKeySeq.toNat ≤ s.localKeySeq.toNat + 1 := by
  unfold encrypt advanceNonce
  dsimp only
  split_ifs
  · exact toNat_succ_le _
  · exact Nat.le_succ _

theorem toNat_localKeySeq_maybeRotate_le (due : Bool) (innerKey : Key) (nonce : UInt64) :
    (s.maybeRotate due innerKey nonce fresh now).localKeySeq.toNat ≤ s.localKeySeq.toNat + 1 := by
  unfold maybeRotate
  split_ifs
  · exact toNat_succ_le _
  · exact Nat.le_succ _

theorem toNat_localKeySeq_decrypt_le (msg : Bytes) :
    (s.decrypt msg fresh now).1.localKeySeq.toNat ≤ s.localKeySeq.toNat + 1 := by
  unfold decrypt decryptDue
  cases s.openTraffic msg with
  | none => exact Nat.le_succ _
  | some opened =>
    obtain ⟨case, nonce, innerKey, payload⟩ := opened
    cases case with
    | current => exact Nat.le_succ _
    | nextSend => exact toNat_localKeySeq_maybeRotate_le (s.withNextSendNonce nonce) ..
    | nextRecv => exact toNat_localKeySeq_maybeRotate_le (s.withNextRecvNonce nonce) ..

end Counts

end Session

end

end Roots

import Roots.Session.Basic

/-!
# Roots.Session.Flight

Traffic messages at the level the ratchet works on. A `Flight` is what a sealed
message says once the bytes and the box are taken away: two key sequences, a
nonce, the unordered pair of public keys it was sealed under, the sender's inner
key and the payload. `Carries` ties the bytes to it, and the two lemmas at the
end are the only places where `encrypt` and `decrypt` meet their byte formats:
what `encrypt` writes carries the session's own flight, and `decrypt` of bytes
that carry a flight is decided by the flight.
-/

namespace Roots

open Wire

/-- A sealed traffic message without its bytes. -/
structure Flight where
  rks : UInt64
  lks : UInt64
  nonce : UInt64
  pair : Sym2 Key
  inner : Key
  msg : Bytes

namespace Session

variable [Crypto]

/-- What the session seals for `msg` once `advanceNonce` has chosen the nonce. -/
def flight (s : Session) (msg : Bytes) : Flight where
  rks := s.localKeySeq
  lks := s.remoteKeySeq
  nonce := s.sendNonce
  pair := s(s.current, s.send.pub)
  inner := s.nextKeys.pub
  msg := msg

/-- The pair of public keys an arm of `decrypt` opens with. -/
def pairOf (s : Session) : Case → Sym2 Key
  | .current => s(s.current, s.recv.pub)
  | .nextSend => s(s.next, s.send.pub)
  | .nextRecv => s(s.next, s.recv.pub)

/-- The counter that guards an arm. -/
def guardNonce (s : Session) : Case → UInt64
  | .current => s.recvNonce
  | .nextSend => s.nextSendNonce
  | .nextRecv => s.nextRecvNonce

/-- The key sequences an arm of `decrypt` asks for. -/
def Matches (s : Session) (rks lks : UInt64) : Case → Prop
  | .current => rks = s.remoteKeySeq ∧ lks + 1 = s.localKeySeq
  | .nextSend => rks = s.remoteKeySeq + 1 ∧ lks = s.localKeySeq
  | .nextRecv => rks = s.remoteKeySeq + 1 ∧ lks + 1 = s.localKeySeq

/-- The three arms exclude each other. -/
theorem Matches.unique {s : Session} {rks lks : UInt64} {c c' : Case} (h : s.Matches rks lks c)
    (h' : s.Matches rks lks c') : c = c' := by
  cases c <;> cases c' <;> simp only [Matches] at h h' <;> first | rfl | grind

/-- So the order in which `decrypt` tries them does not matter: an arm is taken
exactly when its key sequences match and its counter is below the nonce. -/
theorem trafficCase_eq_some_iff {s : Session} {rks lks nonce : UInt64} {c : Case} :
    s.trafficCase rks lks nonce = some c ↔ s.Matches rks lks c ∧ s.guardNonce c < nonce := by
  have hne : ∀ x : UInt64, x + 1 ≠ x := by
    intro x
    grind
  unfold trafficCase
  cases c with
  | current =>
    simp only [Matches, guardNonce]
    split_ifs <;> simp_all
  | nextSend =>
    simp only [Matches, guardNonce]
    split_ifs <;> simp_all
  | nextRecv =>
    simp only [Matches, guardNonce]
    split_ifs <;> simp_all

theorem salsaBox_sharedOf (s : Session) (c : Case) :
    ∃ theirPub ourPriv, s.sharedOf c = salsaBox theirPub ourPriv ∧
      boxPair theirPub ourPriv = s.pairOf c := by
  cases c with
  | current => exact ⟨_, _, s.recvShared_eq, by rw [boxPair, ← s.recv.pub_eq]; rfl⟩
  | nextSend => exact ⟨_, _, s.nextSendShared_eq, by rw [boxPair, ← s.send.pub_eq]; rfl⟩
  | nextRecv => exact ⟨_, _, s.nextRecvShared_eq, by rw [boxPair, ← s.recv.pub_eq]; rfl⟩

end Session

/-! ## Bytes that carry a flight -/

variable [Crypto]

/-- `ct` parses to the header of `f` and a body sealed under the pair of `f`. -/
def Carries (ct : Bytes) (f : Flight) : Prop :=
  ∃ theirPub ourPriv, boxPair theirPub ourPriv = f.pair ∧
    Session.parseTraffic ct =
      some ⟨f.rks, f.lks, f.nonce,
        boxSeal (salsaBox theirPub ourPriv) f.nonce (f.inner.toList ++ f.msg)⟩

namespace Session

/-- A sealed message parses to its own header and body unless it is shorter than
`SESSION_TRAFFIC_MIN`. -/
theorem parseTraffic_sealTraffic (s : Session) (msg : Bytes) :
    parseTraffic (s.sealTraffic msg) =
      if (s.sealTraffic msg).length < sessionTrafficMin then none
      else some ⟨s.localKeySeq, s.remoteKeySeq, s.sendNonce,
        boxSeal s.sendShared s.sendNonce (s.nextKeys.pub.toList ++ msg)⟩ := by
  unfold parseTraffic
  by_cases hlen : (s.sealTraffic msg).length < sessionTrafficMin
  · simp [hlen]
  · set body := boxSeal s.sendShared s.sendNonce (s.nextKeys.pub.toList ++ msg)
    have h1 : (s.sealTraffic msg).drop 1 = uvarint s.localKeySeq ++
        (uvarint s.remoteKeySeq ++ (uvarint s.sendNonce ++ body)) := rfl
    have h2 : (s.sealTraffic msg).drop (1 + (uvarint s.localKeySeq).length) =
        uvarint s.remoteKeySeq ++ (uvarint s.sendNonce ++ body) := by
      rw [← List.drop_drop, h1, List.drop_left]
    have h3 : (s.sealTraffic msg).drop (1 + (uvarint s.localKeySeq).length +
        (uvarint s.remoteKeySeq).length) = uvarint s.sendNonce ++ body := by
      rw [← List.drop_drop, h2, List.drop_left]
    have h4 : (s.sealTraffic msg).drop (1 + (uvarint s.localKeySeq).length +
        (uvarint s.remoteKeySeq).length + (uvarint s.sendNonce).length) = body := by
      rw [← List.drop_drop, h3, List.drop_left]
    have hhead : (s.sealTraffic msg).head? = some sessionTypeTraffic := rfl
    simp [hlen, hhead, h1, h2, h3, h4]

/-- A box seals at least the tag, so the shortest message `encrypt` writes has
exactly the minimum length `decrypt` asks for. -/
theorem carries_sealTraffic (law : BoxRoundtrip) (s : Session) (msg : Bytes) :
    Carries (s.sealTraffic msg) (s.flight msg) := by
  refine ⟨s.current, s.send.priv, ?_, ?_⟩
  · rw [boxPair, ← s.send.pub_eq]
    rfl
  · have hlen : ¬ (s.sealTraffic msg).length < sessionTrafficMin := by
      have h1 := uvarint_length_pos s.localKeySeq
      have h2 := uvarint_length_pos s.remoteKeySeq
      have h3 := uvarint_length_pos s.sendNonce
      simp only [sealTraffic, List.length_cons, List.length_append, law.seal_length,
        List.Vector.toList_length, sessionTrafficMin, keyLen]
      omega
    rw [parseTraffic_sealTraffic, if_neg hlen, s.sendShared_eq]
    rfl

/-- `decrypt` of bytes that carry a flight whose key sequences, pair and nonce fit
an arm: it takes that arm and returns the payload. -/
theorem decryptDue_of_carries (law : BoxRoundtrip) {s : Session} {ct : Bytes} {f : Flight}
    {c : Case} (hct : Carries ct f) (hmatch : s.Matches f.rks f.lks c)
    (hpair : f.pair = s.pairOf c) (hnonce : s.guardNonce c < f.nonce)
    (due : Bool) (fresh : BoxKeys) (now : Instant) :
    s.decryptDue ct due fresh now = (s.accept due c f.inner f.nonce fresh now, some f.msg) := by
  obtain ⟨theirPub, ourPriv, hbox, hparse⟩ := hct
  obtain ⟨p, k, hshared, hp⟩ := s.salsaBox_sharedOf c
  have hcase := trafficCase_eq_some_iff.mpr ⟨hmatch, hnonce⟩
  have hopen := law.open_seal f.nonce (f.inner.toList ++ f.msg) (hp.trans (hpair ▸ hbox.symm))
  have htake : (f.inner.toList ++ f.msg).take 32 = f.inner.toList := by
    rw [List.take_append_of_le_length (by simp), List.take_of_length_le (by simp)]
  have hdrop : (f.inner.toList ++ f.msg).drop 32 = f.msg := by
    rw [List.drop_append_of_le_length (by simp), List.drop_of_length_le (by simp),
      List.nil_append]
  have hopenTraffic : s.openTraffic ct = some (c, f.nonce, f.inner, f.msg) := by
    simp [openTraffic, hparse, hcase, hshared, hopen, htake, hdrop]
  simp [decryptDue, hopenTraffic]

/-- The inversion of `openTraffic`. -/
theorem openTraffic_eq_some {s : Session} {ct : Bytes} {c : Case} {nonce : UInt64} {inner : Key}
    {payload : Bytes} (h : s.openTraffic ct = some (c, nonce, inner, payload)) :
    ∃ t opened, parseTraffic ct = some t ∧ nonce = t.nonce ∧
      s.trafficCase t.rks t.lks t.nonce = some c ∧
      boxOpen (s.sharedOf c) t.nonce t.body = some opened ∧
      opened = inner.toList ++ payload := by
  unfold openTraffic at h
  cases hp : parseTraffic ct with
  | none => simp [hp] at h
  | some t =>
    cases hc : s.trafficCase t.rks t.lks t.nonce with
    | none => simp [hp, hc] at h
    | some c' =>
      cases ho : boxOpen (s.sharedOf c') t.nonce t.body with
      | none => simp [hp, hc, ho] at h
      | some opened =>
        cases hk : arrayOf keyLen (opened.take 32) with
        | none => simp [hp, hc, ho, hk] at h
        | some inner' =>
          simp only [hp, hc, ho, hk, Option.bind_eq_bind, Option.bind_some, Option.pure_def,
            Option.some.injEq, Prod.mk.injEq] at h
          obtain ⟨rfl, rfl, rfl, rfl⟩ := h
          refine ⟨t, opened, rfl, rfl, hc, ho, ?_⟩
          rw [← arrayOf_eq_some_iff.mp hk, List.take_append_drop]

/-- A message whose key sequences fit no arm is refused, whatever its keys. -/
theorem openTraffic_sealTraffic_eq_none {s s₀ : Session}
    (h : ∀ c, ¬ s.Matches s₀.localKeySeq s₀.remoteKeySeq c) (msg : Bytes) :
    s.openTraffic (s₀.sealTraffic msg) = none := by
  cases ho : s.openTraffic (s₀.sealTraffic msg) with
  | none => rfl
  | some r =>
    obtain ⟨c, nonce, inner, payload⟩ := r
    obtain ⟨t, -, hparse, -, hcase, -, -⟩ := openTraffic_eq_some ho
    rw [parseTraffic_sealTraffic] at hparse
    split at hparse
    · cases hparse
    · obtain rfl := Option.some.inj hparse
      exact absurd (trafficCase_eq_some_iff.mp hcase).1 (h c)

end Session

end Roots

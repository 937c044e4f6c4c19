import Mathlib.Data.List.Nodup
import Roots.Session.Checked
import Roots.Session.Endpoint
import Roots.Session.InOrder

/-!
# Roots.Session.Replay

Replay protection of a session under an adversarial network: traffic, inits and
acks may be dropped, delayed, reordered and duplicated, and undecryptable bytes
may be injected, each of which makes the receiver answer with a repair init. The
two ends start before the open, so it may be crossed, repeated or held up.

A session guards its three arms with three counters. A rotation carries the nonce
it accepted over into the counter of the arm that takes the same message
afterwards. `apply_update` does not: it zeroes all three counters, while the key
that was `send` becomes `recv`. A message accepted in the `next_send` arm is
therefore accepted a second time when an init announces the keys it was sealed
under again (`replay_after_repair`). That is the only way: `accepted_once` shows
that no message is accepted twice in a run none of whose updates does that, and
that one which does lets the message in again.
-/

namespace Roots

/-! ## Messages -/

/-- The contents of an init or ack. -/
def SessionMsg.init? : SessionMsg → Option SessionInit
  | .init _ contents => some contents
  | .traffic _ => none

namespace Replay

section Guards

variable [Crypto]

/-! ## The system -/

/-- Two ends, everything either ever sent, and the traffic each decrypted, oldest
first. -/
structure Net where
  ends : Side → Endpoint
  sent : Side → List SessionMsg
  accepted : Side → List Bytes

/-- What the network and the ends can do. Random and clock inputs are part of the
action. -/
inductive Action where
  /-- `x` sends a payload. -/
  | send (x : Side) (kind : UInt8) (msg : Bytes) (d : Draw)
  /-- A message reaches `x`. -/
  | deliver (x : Side) (msg : SessionMsg) (d : Draw)

/-- The traffic an end decrypts when a message reaches it. -/
def opens (e : Endpoint) (msg : SessionMsg) (d : Draw) : List Bytes :=
  match e.session, msg with
  | some s, .traffic ct => if (s.decrypt ct d.first d.now).2.isSome then [ct] else []
  | _, _ => []

namespace Net

/-- The state after `x` moved to `r.1`, sent `r.2` and accepted `more`. -/
def after (n : Net) (x : Side) (r : Endpoint × List SessionMsg) (more : List Bytes) : Net where
  ends := Function.update n.ends x r.1
  sent := Function.update n.sent x (n.sent x ++ r.2)
  accepted := Function.update n.accepted x (n.accepted x ++ more)

def step (n : Net) : Action → Net
  | .send x kind msg d => n.after x ((n.ends x).sendKind kind msg d) []
  | .deliver x msg d => n.after x ((n.ends x).receive msg d) (opens (n.ends x) msg d)

/-- What the adversary can deliver: everything the other end sent, and traffic that
does not decrypt. -/
def Enabled (n : Net) : Action → Prop
  | .send .. => True
  | .deliver x msg d =>
      msg ∈ n.sent x.other ∨ msg.traffic?.isSome = true ∧ opens (n.ends x) msg d = []

/-- Two ends that have not talked to each other. -/
def start (initSeq : Side → UInt64) : Net where
  ends x := Endpoint.fresh (initSeq x)
  sent _ := []
  accepted _ := []

end Net

/-! ## Spent messages -/

open Session (Case Traffic parseTraffic)

/-- The header `t` was accepted by `s` and cannot be accepted now: every arm it
matches has counted its nonce. The last field is what makes it stay spent when
the keys move: a header that names the present local keys came in through the
`next_send` arm. -/
structure Spent (s : Session) (t : Traffic) : Prop where
  pos : 0 < t.nonce
  le : t.lks ≤ s.localKeySeq
  counted : ∀ c, s.Matches t.rks t.lks c → t.nonce ≤ s.guardNonce c
  viaNext : t.lks = s.localKeySeq → t.rks = s.remoteKeySeq + 1 ∧ t.nonce ≤ s.nextSendNonce

variable {s : Session} {t t' : Traffic}

theorem Spent.not_accepted (h : Spent s t) : s.trafficCase t.rks t.lks t.nonce = none := by
  cases hc : s.trafficCase t.rks t.lks t.nonce with
  | none => rfl
  | some c =>
    obtain ⟨hmatch, hlt⟩ := Session.trafficCase_eq_some_iff.mp hc
    have hle := h.counted c hmatch
    exact absurd hlt (UInt64.not_lt.mpr hle)

/-- A header stays spent when the local keys move on, unless one of the two arms
that now look at the old `send` key would take it. -/
theorem Spent.shift {s' : Session} (h : Spent s t) (hwrap : s.localKeySeq + 1 ≠ 0)
    (hlocal : s'.localKeySeq = s.localKeySeq + 1)
    (hcurrent : t.lks = s.localKeySeq → t.rks = s'.remoteKeySeq → t.nonce ≤ s'.recvNonce)
    (hnext : t.lks = s.localKeySeq → t.rks ≠ s'.remoteKeySeq + 1) : Spent s' t := by
  have hle := h.le
  refine ⟨h.pos, by grind, ?_, by grind⟩
  intro c hmatch
  cases c with
  | current =>
    obtain ⟨hrks, hlks⟩ := hmatch
    exact hcurrent (by grind) hrks
  | nextSend =>
    obtain ⟨-, hlks⟩ := hmatch
    exact absurd hlks (by grind)
  | nextRecv =>
    obtain ⟨hrks, hlks⟩ := hmatch
    exact absurd hrks (hnext (by grind))

/-- The update does not announce again the keys under which messages accepted in
the `next_send` arm were sealed: there are none, or the announced key sequence
puts those keys in neither of the two places where they would be tried. -/
def SafeUpdate (s : Session) (init : SessionInit) : Prop :=
  s.nextSendNonce = 0 ∨ init.keySeq ≠ s.remoteKeySeq ∧ init.keySeq ≠ s.remoteKeySeq + 1

instance (s : Session) (init : SessionInit) : Decidable (SafeUpdate s init) :=
  inferInstanceAs (Decidable (_ ∨ _))

theorem Spent.applyUpdate (h : Spent s t) (hwrap : s.localKeySeq + 1 ≠ 0) {init : SessionInit}
    (hsafe : SafeUpdate s init) (fresh : BoxKeys) : Spent (s.applyUpdate init fresh) t := by
  have hpos := h.pos
  refine h.shift hwrap rfl ?_ ?_
  · intro hlks hrks
    obtain ⟨hvia, hnonce⟩ := h.viaNext hlks
    have hkeySeq : t.rks = init.keySeq := hrks
    rcases hsafe with hzero | ⟨-, hne⟩
    · show t.nonce ≤ 0
      rw [← hzero]
      exact hnonce
    · exact absurd (hkeySeq.symm.trans hvia) hne
  · intro hlks hrks
    obtain ⟨hvia, hnonce⟩ := h.viaNext hlks
    have hkeySeq : t.rks = init.keySeq + 1 := hrks
    rcases hsafe with hzero | ⟨hne, -⟩
    · grind
    · exact hne (by grind)

/-- A rotation carries the nonce it accepted into the `current` arm. -/
theorem Spent.rotate (h : Spent s t) (hwrap : s.localKeySeq + 1 ≠ 0) (inner : Key)
    {nonce : UInt64} (hnonce : t.lks = s.localKeySeq → t.nonce ≤ nonce) (fresh : BoxKeys)
    (now : Instant) : Spent (s.rotate inner nonce fresh now) t := by
  refine h.shift hwrap rfl (fun hlks _ => hnonce hlks) ?_
  intro hlks hrks
  obtain ⟨hvia, -⟩ := h.viaNext hlks
  have hrotated : t.rks = s.remoteKeySeq + 1 + 1 := hrks
  grind

/-- Raising one counter keeps what is spent spent. -/
theorem Spent.raise {s' : Session} (h : Spent s t) (hlocal : s'.localKeySeq = s.localKeySeq)
    (hremote : s'.remoteKeySeq = s.remoteKeySeq)
    (hguard : ∀ c, s.guardNonce c ≤ s'.guardNonce c) : Spent s' t := by
  refine ⟨h.pos, hlocal ▸ h.le, ?_, ?_⟩
  · intro c hmatch
    have hmatch' : s.Matches t.rks t.lks c := by
      cases c <;> simpa [Session.Matches, hlocal, hremote] using hmatch
    exact UInt64.le_trans (h.counted c hmatch') (hguard c)
  · intro hlks
    obtain ⟨hvia, hnonce⟩ := h.viaNext (hlks.trans hlocal)
    exact ⟨hremote ▸ hvia, UInt64.le_trans hnonce (hguard .nextSend)⟩

/-- Accepting `t'` keeps `t` spent. Two headers of one sender with the same key
sequence have the same second one, so a rotation through the `next_recv` arm
cannot follow a message accepted in the `next_send` arm. -/
theorem Spent.accept (h : Spent s t) (hwrap : s.localKeySeq + 1 ≠ 0) {c : Case}
    (hc : s.trafficCase t'.rks t'.lks t'.nonce = some c)
    (hfun : t.rks = t'.rks → t.lks = t'.lks) (due : Bool) (inner : Key) (fresh : BoxKeys)
    (now : Instant) : Spent (s.accept due c inner t'.nonce fresh now) t := by
  obtain ⟨hmatch, hlt⟩ := Session.trafficCase_eq_some_iff.mp hc
  have hle := UInt64.le_of_lt hlt
  cases c with
  | current =>
    refine h.raise rfl rfl ?_
    intro c
    cases c with
    | current => exact hle
    | nextSend => exact UInt64.le_refl _
    | nextRecv => exact UInt64.le_refl _
  | nextSend =>
    have hraise : Spent (s.withNextSendNonce t'.nonce) t := by
      refine h.raise rfl rfl ?_
      intro c
      cases c with
      | current => exact UInt64.le_refl _
      | nextSend => exact hle
      | nextRecv => exact UInt64.le_refl _
    cases due with
    | false => exact hraise
    | true => exact hraise.rotate hwrap inner (fun hlks => (hraise.viaNext hlks).2) fresh now
  | nextRecv =>
    have hraise : Spent (s.withNextRecvNonce t'.nonce) t := by
      refine h.raise rfl rfl ?_
      intro c
      cases c with
      | current => exact UInt64.le_refl _
      | nextSend => exact UInt64.le_refl _
      | nextRecv => exact hle
    cases due with
    | false => exact hraise
    | true =>
      refine hraise.rotate hwrap inner ?_ fresh now
      intro hlks
      obtain ⟨hvia, -⟩ := h.viaNext hlks
      obtain ⟨hrks, hlks'⟩ := hmatch
      have hsame := hfun (hvia.trans hrks.symm)
      have hlocal : t.lks = s.localKeySeq := hlks
      grind

/-- A message is spent once it is accepted. -/
theorem Spent.of_accept (hwrap : s.localKeySeq + 1 ≠ 0) (hle : t.lks ≤ s.localKeySeq) {c : Case}
    (hc : s.trafficCase t.rks t.lks t.nonce = some c) (due : Bool) (inner : Key)
    (fresh : BoxKeys) (now : Instant) : Spent (s.accept due c inner t.nonce fresh now) t := by
  obtain ⟨hmatch, hlt⟩ := Session.trafficCase_eq_some_iff.mp hc
  have hpos : 0 < t.nonce := by grind
  have hne : t.lks + 1 = s.localKeySeq → t.lks ≠ s.localKeySeq := by grind
  -- In its own arm the header meets the counter it has just raised, and it
  -- matches no other arm.
  have hcounted : ∀ s' : Session, s'.localKeySeq = s.localKeySeq →
      s'.remoteKeySeq = s.remoteKeySeq → s'.guardNonce c = t.nonce →
      ∀ c', s'.Matches t.rks t.lks c' → t.nonce ≤ s'.guardNonce c' := by
    intro s' hlocal hremote hguard c' hmatch'
    have hsame : s'.Matches t.rks t.lks c := by
      cases c <;> simpa [Session.Matches, hlocal, hremote] using hmatch
    rw [hmatch'.unique hsame, hguard]
    exact UInt64.le_refl _
  cases c with
  | current =>
    obtain ⟨-, hlks⟩ := hmatch
    exact ⟨hpos, hle, hcounted _ rfl rfl rfl, fun heq => absurd heq (hne hlks)⟩
  | nextSend =>
    obtain ⟨hrks, -⟩ := hmatch
    have hself : Spent (s.withNextSendNonce t.nonce) t :=
      ⟨hpos, hle, hcounted _ rfl rfl rfl, fun _ => ⟨hrks, UInt64.le_refl _⟩⟩
    cases due with
    | false => exact hself
    | true => exact hself.rotate hwrap inner (fun _ => UInt64.le_refl _) fresh now
  | nextRecv =>
    obtain ⟨-, hlks⟩ := hmatch
    have hself : Spent (s.withNextRecvNonce t.nonce) t :=
      ⟨hpos, hle, hcounted _ rfl rfl rfl, fun heq => absurd heq (hne hlks)⟩
    cases due with
    | false => exact hself
    | true => exact hself.rotate hwrap inner (fun _ => UInt64.le_refl _) fresh now

/-! ## The invariant -/

/-- What the argument is about: the sessions, the traffic and the inits and acks that
were sent, and the traffic that was accepted. -/
structure Ledger where
  session : Side → Option Session
  traffic : Side → List Bytes
  inits : Side → List SessionInit
  accepted : Side → List Bytes

def Net.ledger (n : Net) : Ledger where
  session x := (n.ends x).session
  traffic x := (n.sent x).filterMap SessionMsg.traffic?
  inits x := (n.sent x).filterMap SessionMsg.init?
  accepted := n.accepted

namespace Ledger

/-- The local key sequence of `x`. An end without a session counts from zero. -/
def localSeq (l : Ledger) (x : Side) : UInt64 := ((l.session x).map Session.localKeySeq).getD 0

/-- What `x` has counted of the keys of its peer. -/
def remoteSeq (l : Ledger) (x : Side) : UInt64 := ((l.session x).map Session.remoteKeySeq).getD 0

variable {l : Ledger} {x : Side} {s : Session}

theorem localSeq_of_some (h : l.session x = some s) : l.localSeq x = s.localKeySeq := by
  rw [localSeq, h]
  rfl

theorem remoteSeq_of_some (h : l.session x = some s) : l.remoteSeq x = s.remoteKeySeq := by
  rw [remoteSeq, h]
  rfl

theorem localSeq_of_none (h : l.session x = none) : l.localSeq x = 0 := by
  rw [localSeq, h]
  rfl

theorem remoteSeq_of_none (h : l.session x = none) : l.remoteSeq x = 0 := by
  rw [remoteSeq, h]
  rfl

/-- `x` has the session `s'` now. -/
def setSession (l : Ledger) (x : Side) (s' : Session) : Ledger :=
  { l with session := Function.update l.session x (some s') }

/-- `x` sent messages. -/
def addSent (l : Ledger) (x : Side) (out : List SessionMsg) : Ledger :=
  { l with
    traffic := Function.update l.traffic x (l.traffic x ++ out.filterMap SessionMsg.traffic?)
    inits := Function.update l.inits x (l.inits x ++ out.filterMap SessionMsg.init?) }

/-- `x` accepted traffic. -/
def addAccepted (l : Ledger) (x : Side) (more : List Bytes) : Ledger :=
  { l with accepted := Function.update l.accepted x (l.accepted x ++ more) }

@[simp]
theorem session_setSession_self (s' : Session) : (l.setSession x s').session x = some s' :=
  Function.update_self _ _ _

@[simp]
theorem session_setSession_other (s' : Session) :
    (l.setSession x s').session x.other = l.session x.other :=
  Function.update_of_ne (Side.other_ne x) _ _

theorem addSent_nil : l.addSent x [] = l := by simp [addSent]

theorem addAccepted_nil : l.addAccepted x [] = l := by simp [addAccepted]

/-- Of two moves of `x` the second session stays, and the messages of both. -/
theorem addSent_append (s s' : Session) (out out' : List SessionMsg) :
    (((l.setSession x s).addSent x out).setSession x s').addSent x out' =
      (l.setSession x s').addSent x (out ++ out') := by
  simp [setSession, addSent]

end Ledger

/-- Key sequences only grow, an end never counts more keys of its peer than the
peer has, one key sequence of a sender goes with one of the receiver, and what an
end accepted is spent there. -/
structure Inv (l : Ledger) : Prop where
  remote_le : ∀ x : Side, l.remoteSeq x.other ≤ l.localSeq x
  init_le : ∀ x, ∀ init ∈ l.inits x, init.keySeq ≤ l.localSeq x
  header_le : ∀ x, ∀ ct ∈ l.traffic x, ∀ t, parseTraffic ct = some t →
    t.rks ≤ l.localSeq x ∧ t.lks ≤ l.localSeq x.other ∧
      (t.rks = l.localSeq x → t.lks = l.remoteSeq x)
  functional : ∀ x, ∀ ct ∈ l.traffic x, ∀ ct' ∈ l.traffic x, ∀ t t', parseTraffic ct = some t →
    parseTraffic ct' = some t' → t.rks = t'.rks → t.lks = t'.lks
  spent : ∀ x, ∀ ct ∈ l.accepted x, ct ∈ l.traffic x.other ∧
    ∃ s t, l.session x = some s ∧ parseTraffic ct = some t ∧ Spent s t
  nodup : ∀ x, (l.accepted x).Nodup

section Moves

open Ledger

variable {l : Ledger}

/-- Giving `x` a session with no smaller local key sequence, whose view of the peer
is not ahead of the peer, and which keeps what was spent spent. -/
theorem Inv.setSession (h : Inv l) {x : Side} {s' : Session}
    (hlocal : l.localSeq x ≤ s'.localKeySeq)
    (hremote : s'.localKeySeq = l.localSeq x → s'.remoteKeySeq = l.remoteSeq x)
    (hle : s'.remoteKeySeq ≤ l.localSeq x.other)
    (hspent : ∀ ct ∈ l.accepted x, ∀ s t, l.session x = some s → parseTraffic ct = some t →
      Spent s t → Spent s' t) :
    Inv (l.setSession x s') := by
  have hself : (l.setSession x s').localSeq x = s'.localKeySeq :=
    localSeq_of_some (session_setSession_self s')
  have hself' : (l.setSession x s').remoteSeq x = s'.remoteKeySeq :=
    remoteSeq_of_some (session_setSession_self s')
  have hother : (l.setSession x s').localSeq x.other = l.localSeq x.other := by
    rw [localSeq, session_setSession_other, localSeq]
  have hother' : (l.setSession x s').remoteSeq x.other = l.remoteSeq x.other := by
    rw [remoteSeq, session_setSession_other, remoteSeq]
  have hmono : ∀ z, l.localSeq z ≤ (l.setSession x s').localSeq z := by
    intro z
    rcases Side.eq_or_eq_other x z with rfl | rfl
    · rw [hself]
      exact hlocal
    · rw [hother]
      exact UInt64.le_refl _
  refine ⟨?_, ?_, ?_, h.functional, ?_, h.nodup⟩
  · intro z
    rcases Side.eq_or_eq_other x z with rfl | rfl
    · rw [hself, hother']
      exact UInt64.le_trans (h.remote_le z) hlocal
    · rw [Side.other_other, hself', hother]
      exact hle
  · intro z init hinit
    exact UInt64.le_trans (h.init_le z init hinit) (hmono z)
  · intro z ct hct t ht
    obtain ⟨hrks, hlks, hkey⟩ := h.header_le z ct hct t ht
    refine ⟨UInt64.le_trans hrks (hmono z), UInt64.le_trans hlks (hmono z.other), ?_⟩
    rcases Side.eq_or_eq_other x z with rfl | rfl
    · rw [hself, hself']
      intro heq
      have hsame : s'.localKeySeq = l.localSeq z := UInt64.le_antisymm (heq ▸ hrks) hlocal
      rw [hremote hsame]
      exact hkey (heq.trans hsame)
    · rw [hother, hother']
      exact hkey
  · intro z ct hct
    obtain ⟨hmem, s, t, hs, ht, hsp⟩ := h.spent z ct hct
    rcases Side.eq_or_eq_other x z with rfl | rfl
    · exact ⟨hmem, s', t, session_setSession_self s', ht, hspent ct hct s t hs ht hsp⟩
    · exact ⟨hmem, s, t, (session_setSession_other s').trans hs, ht, hsp⟩

omit [Crypto] in
theorem mem_update_append {α : Type} {f : Side → List α} {x z : Side} {more : List α} {e : α}
    (h : e ∈ Function.update f x (f x ++ more) z) : e ∈ f z ∨ z = x ∧ e ∈ more := by
  rcases eq_or_ne z x with rfl | hne
  · rw [Function.update_self] at h
    exact (List.mem_append.mp h).imp_right (fun hl => ⟨rfl, hl⟩)
  · rw [Function.update_of_ne hne] at h
    exact .inl h

omit [Crypto] in
theorem mem_update_of_mem {α : Type} {f : Side → List α} {x z : Side} {more : List α} {e : α}
    (h : e ∈ f z) : e ∈ Function.update f x (f x ++ more) z := by
  rcases eq_or_ne z x with rfl | hne
  · rw [Function.update_self]
    exact List.mem_append_left _ h
  · rw [Function.update_of_ne hne]
    exact h

/-- New messages of `x`: traffic under its present keys, inits and acks that announce
no later ones. -/
theorem Inv.addSent (h : Inv l) (x : Side) {out : List SessionMsg}
    (htraffic : ∀ ct, .traffic ct ∈ out → ∀ t, parseTraffic ct = some t →
      t.rks = l.localSeq x ∧ t.lks = l.remoteSeq x)
    (hinits : ∀ isAck init, .init isAck init ∈ out → init.keySeq ≤ l.localSeq x) :
    Inv (l.addSent x out) := by
  have hnew : ∀ ct ∈ out.filterMap SessionMsg.traffic?, ∀ t, parseTraffic ct = some t →
      t.rks = l.localSeq x ∧ t.lks = l.remoteSeq x := by
    intro ct hct
    obtain ⟨_ | ct', hmem, hsome⟩ := List.mem_filterMap.mp hct
    · cases hsome
    · cases hsome
      exact htraffic ct hmem
  refine ⟨h.remote_le, ?_, ?_, ?_, ?_, h.nodup⟩
  · intro z init hinit
    rcases mem_update_append hinit with hold | ⟨rfl, hin⟩
    · exact h.init_le z init hold
    · obtain ⟨⟨isAck, init'⟩ | _, hmem, hsome⟩ := List.mem_filterMap.mp hin
      · cases hsome
        exact hinits isAck init hmem
      · cases hsome
  · intro z ct hct t ht
    rcases mem_update_append hct with hold | ⟨rfl, hin⟩
    · exact h.header_le z ct hold t ht
    · obtain ⟨hrks, hlks⟩ := hnew ct hin t ht
      have hle := h.remote_le z.other
      rw [Side.other_other] at hle
      exact ⟨UInt64.le_of_eq hrks, UInt64.le_trans (UInt64.le_of_eq hlks) hle, fun _ => hlks⟩
  · intro z ct₁ hct₁ ct₂ hct₂ t₁ t₂ ht₁ ht₂ hrks
    rcases mem_update_append hct₁ with hold₁ | ⟨rfl, hin₁⟩ <;>
      rcases mem_update_append hct₂ with hold₂ | ⟨hz, hin₂⟩
    · exact h.functional z ct₁ hold₁ ct₂ hold₂ t₁ t₂ ht₁ ht₂ hrks
    · obtain ⟨hrks₂, hlks₂⟩ := hnew ct₂ hin₂ t₂ ht₂
      subst hz
      rw [hlks₂]
      exact (h.header_le z ct₁ hold₁ t₁ ht₁).2.2 (hrks.trans hrks₂)
    · obtain ⟨hrks₁, hlks₁⟩ := hnew ct₁ hin₁ t₁ ht₁
      rw [hlks₁]
      exact ((h.header_le z ct₂ hold₂ t₂ ht₂).2.2 (hrks.symm.trans hrks₁)).symm
    · rw [(hnew ct₁ hin₁ t₁ ht₁).2, (hnew ct₂ hin₂ t₂ ht₂).2]
  · intro z ct hct
    obtain ⟨hmem, hspent⟩ := h.spent z ct hct
    exact ⟨mem_update_of_mem hmem, hspent⟩

/-- `x` accepted `ct`, which it had not accepted before. -/
theorem Inv.addAccepted (h : Inv l) {x : Side} {s : Session} (hs : l.session x = some s)
    {ct : Bytes} {t : Traffic} (hmem : ct ∈ l.traffic x.other) (ht : parseTraffic ct = some t)
    (hspent : Spent s t) (hnew : ct ∉ l.accepted x) : Inv (l.addAccepted x [ct]) := by
  refine ⟨h.remote_le, h.init_le, h.header_le, h.functional, ?_, ?_⟩
  · intro z ct' hct'
    rcases mem_update_append hct' with hold | ⟨rfl, hin⟩
    · exact h.spent z ct' hold
    · obtain rfl := List.mem_singleton.mp hin
      exact ⟨hmem, s, t, hs, ht, hspent⟩
  · intro z
    show (Function.update l.accepted x (l.accepted x ++ [ct]) z).Nodup
    rcases eq_or_ne z x with rfl | hne
    · rw [Function.update_self, List.nodup_append]
      refine ⟨h.nodup z, List.nodup_singleton ct, ?_⟩
      intro e he e' he' heq
      obtain rfl := List.mem_singleton.mp he'
      exact hnew (heq ▸ he)
    · rw [Function.update_of_ne hne]
      exact h.nodup z

end Moves

/-! ### One step -/

/-- What `decrypt` does, as far as headers go: an accepted message parses and fits
an arm. -/
theorem decrypt_eq_some {s s' : Session} {ct payload : Bytes} {fresh : BoxKeys} {now : Instant}
    (h : s.decrypt ct fresh now = (s', some payload)) :
    ∃ t c inner, parseTraffic ct = some t ∧ s.trafficCase t.rks t.lks t.nonce = some c ∧
      s' = s.accept (s.rotationDue now) c inner t.nonce fresh now := by
  unfold Session.decrypt Session.decryptDue at h
  cases ho : s.openTraffic ct with
  | none => simp [ho] at h
  | some r =>
    obtain ⟨c, nonce, inner, payload'⟩ := r
    obtain ⟨t, -, hparse, rfl, hcase, -, -⟩ := Session.openTraffic_eq_some ho
    simp only [ho, Prod.mk.injEq] at h
    exact ⟨t, c, inner, hparse, hcase, h.1.symm⟩

/-- Accepting a message either leaves both key sequences alone or advances both. -/
theorem accept_keySeqs (s : Session) (due : Bool) (c : Case) (inner : Key) (nonce : UInt64)
    (fresh : BoxKeys) (now : Instant) :
    ((s.accept due c inner nonce fresh now).localKeySeq = s.localKeySeq ∧
      (s.accept due c inner nonce fresh now).remoteKeySeq = s.remoteKeySeq) ∨
    (c ≠ .current ∧ (s.accept due c inner nonce fresh now).localKeySeq = s.localKeySeq + 1 ∧
      (s.accept due c inner nonce fresh now).remoteKeySeq = s.remoteKeySeq + 1) := by
  cases c with
  | current => exact .inl ⟨rfl, rfl⟩
  | nextSend =>
    cases due with
    | false => exact .inl ⟨rfl, rfl⟩
    | true => exact .inr ⟨by simp, rfl, rfl⟩
  | nextRecv =>
    cases due with
    | false => exact .inl ⟨rfl, rfl⟩
    | true => exact .inr ⟨by simp, rfl, rfl⟩

/-- The conditions on a step under which nothing is accepted twice: no counter of
the acting session is exhausted, and an init or ack that is about to be accepted is a
`SafeUpdate`. -/
def Safe (n : Net) : Action → Prop
  | .send x _ _ _ => ∀ s ∈ (n.ends x).session, s.sendNonce + 1 ≠ 0
  | .deliver x msg _ => ∀ s ∈ (n.ends x).session, s.localKeySeq + 1 ≠ 0 ∧
      ∀ init ∈ msg.init?, s.seq < init.seq → SafeUpdate s init

section Steps

open Ledger

variable {l : Ledger} {x : Side}

theorem Net.ledger_after (n : Net) {x : Side} {r : Endpoint × List SessionMsg} {s : Session}
    (hs : r.1.session = some s) (more : List Bytes) :
    (n.after x r more).ledger = ((n.ledger.setSession x s).addSent x r.2).addAccepted x more := by
  simp only [Net.ledger, Net.after, setSession, Ledger.addSent, Ledger.addAccepted, Ledger.mk.injEq]
  refine ⟨?_, ?_, ?_, trivial⟩ <;> funext z <;> rcases eq_or_ne z x with rfl | hne <;> simp [*]

/-- The same where `x` keeps its session or has none. -/
theorem Net.ledger_after_kept (n : Net) {x : Side} {r : Endpoint × List SessionMsg}
    (hs : r.1.session = (n.ends x).session) :
    (n.after x r []).ledger = n.ledger.addSent x r.2 := by
  simp only [Net.ledger, Net.after, Ledger.addSent, Ledger.mk.injEq]
  refine ⟨?_, ?_, ?_, ?_⟩ <;> funext z <;> rcases eq_or_ne z x with rfl | hne <;> simp [*]

/-- The header of a sealed message names the keys of its session. -/
theorem header_sealTraffic {s : Session} {msg : Bytes} {t : Traffic}
    (h : parseTraffic (s.sealTraffic msg) = some t) :
    t.rks = s.localKeySeq ∧ t.lks = s.remoteKeySeq := by
  have hparse := Session.parseTraffic_sealTraffic s msg
  rw [h] at hparse
  split at hparse
  · cases hparse
  · cases hparse
    exact ⟨rfl, rfl⟩

/-- A session may count its messages. -/
theorem Inv.withSendNonce (h : Inv l) {s : Session} (hs : l.session x = some s) (nonce : UInt64) :
    Inv (l.setSession x (s.withSendNonce nonce)) := by
  have hle := h.remote_le x.other
  rw [Side.other_other, remoteSeq_of_some hs] at hle
  refine h.setSession ?_ (fun _ => (remoteSeq_of_some hs).symm) hle ?_
  · rw [localSeq_of_some hs]
    exact UInt64.le_refl _
  · intro ct _ s₀ t hs₀ _ hspent
    cases hs.symm.trans hs₀
    exact hspent.raise rfl rfl (fun c => by cases c <;> exact UInt64.le_refl _)

/-- A message is sealed under a session. -/
theorem Inv.seal (h : Inv l) {s : Session} (hs : l.session x = some s)
    (hwrap : s.sendNonce + 1 ≠ 0) (msg : Bytes) (fresh : BoxKeys) :
    Inv ((l.setSession x (s.encrypt msg fresh).1).addSent x [.traffic (s.encrypt msg fresh).2]) := by
  have hadvance : s.advanceNonce fresh = s.withSendNonce (s.sendNonce + 1) :=
    Session.advanceNonce_of_ne hwrap
  have hset := h.withSendNonce hs (s.sendNonce + 1)
  rw [Session.encrypt, hadvance]
  refine hset.addSent x ?_ ?_
  · intro ct hct t ht
    obtain rfl : ct = _ := by simpa using hct
    rw [localSeq_of_some (session_setSession_self _), remoteSeq_of_some (session_setSession_self _)]
    exact header_sealTraffic ht
  · simp

theorem Inv.sendKind {n : Net} (h : Inv n.ledger) (x : Side) (kind : UInt8) (msg : Bytes)
    (d : Draw) (hsafe : ∀ s ∈ (n.ends x).session, s.sendNonce + 1 ≠ 0) :
    Inv (n.after x ((n.ends x).sendKind kind msg d) []).ledger := by
  unfold Endpoint.sendKind
  cases hs : (n.ends x).session with
  | some s =>
    dsimp only
    rw [n.ledger_after (r := (n.ends x).sendInner s kind msg d.first) rfl, addAccepted_nil]
    exact h.seal hs (hsafe s hs) (kind :: msg) d.first
  | none =>
    -- The init of a pending open announces the first keys.
    dsimp only
    rw [n.ledger_after_kept hs.symm]
    refine h.addSent x (by simp) fun isAck init hinit => ?_
    obtain ⟨-, rfl⟩ : isAck = false ∧ init = _ := by simpa using hinit
    rw [SessionBuf.keySeq_eq]
    exact UInt64.zero_le

/-- Traffic of the peer is accepted. -/
theorem Inv.accept (h : Inv l) {s s' : Session} (hs : l.session x = some s)
    (hwrap : s.localKeySeq + 1 ≠ 0) {ct payload : Bytes} (hct : ct ∈ l.traffic x.other)
    {fresh : BoxKeys} {now : Instant} (hdec : s.decrypt ct fresh now = (s', some payload)) :
    Inv ((l.setSession x s').addAccepted x [ct]) := by
  obtain ⟨t, c, inner, ht, hcase, hs'⟩ := decrypt_eq_some hdec
  obtain ⟨hrks, hlks, -⟩ := h.header_le x.other ct hct t ht
  have hremote := h.remote_le x.other
  rw [Side.other_other, localSeq_of_some hs] at hlks
  rw [Side.other_other, remoteSeq_of_some hs] at hremote
  have hkeys := accept_keySeqs s (s.rotationDue now) c inner t.nonce fresh now
  rw [← hs'] at hkeys
  have hlocal : s.localKeySeq ≤ s'.localKeySeq := by grind
  have hsame : s'.localKeySeq = s.localKeySeq → s'.remoteKeySeq = s.remoteKeySeq := by grind
  have hle : s'.remoteKeySeq ≤ l.localSeq x.other := by
    rcases hkeys with ⟨-, hkeep⟩ | ⟨hc, -, hnext⟩
    · exact hkeep ▸ hremote
    · -- Both `next` arms ask for the key sequence the session moves to.
      have hrks' : t.rks = s.remoteKeySeq + 1 := by
        obtain ⟨hmatch, -⟩ := Session.trafficCase_eq_some_iff.mp hcase
        cases c with
        | current => exact absurd rfl hc
        | nextSend => exact hmatch.1
        | nextRecv => exact hmatch.1
      rw [hnext, ← hrks']
      exact hrks
  have hspent : ∀ ct' ∈ l.accepted x, ∀ s₀ t', l.session x = some s₀ → parseTraffic ct' = some t' →
      Spent s₀ t' → Spent s' t' := by
    intro ct' hct' s₀ t' hs₀ ht' hsp
    cases hs.symm.trans hs₀
    have hsent := (h.spent x ct' hct').1
    rw [hs']
    exact hsp.accept hwrap hcase (h.functional x.other ct' hsent ct hct t' t ht' ht) _ inner fresh now
  rw [← localSeq_of_some hs] at hlocal hsame
  rw [← remoteSeq_of_some hs] at hsame
  refine (h.setSession hlocal hsame hle hspent).addAccepted (session_setSession_self s') hct ht ?_ ?_
  · rw [hs']
    exact Spent.of_accept hwrap hlks hcase _ inner fresh now
  · intro hacc
    obtain ⟨-, s₀, t', hs₀, ht', hsp⟩ := h.spent x ct hacc
    cases hs.symm.trans hs₀
    cases ht'.symm.trans ht
    rw [hsp.not_accepted] at hcase
    cases hcase

theorem Inv.onTraffic {n : Net} (h : Inv n.ledger) (x : Side) {ct : Bytes} {d : Draw}
    (hct : .traffic ct ∈ n.sent x.other ∨ opens (n.ends x) (.traffic ct) d = [])
    (hwrap : ∀ s ∈ (n.ends x).session, s.localKeySeq + 1 ≠ 0) :
    Inv (n.step (.deliver x (.traffic ct) d)).ledger := by
  unfold Net.step
  cases hs : (n.ends x).session with
  | none =>
    have hopens : opens (n.ends x) (.traffic ct) d = [] := by simp [opens, hs]
    dsimp only
    rw [hopens, receive_traffic_of_none hs, n.ledger_after_kept rfl]
    refine h.addSent x (by simp) fun isAck init hinit => ?_
    obtain ⟨-, rfl⟩ : isAck = false ∧ init = _ := by simpa using hinit
    exact UInt64.zero_le
  | some s =>
    obtain ⟨s', r, hdec⟩ : ∃ s' r, s.decrypt ct d.first d.now = (s', r) := ⟨_, _, rfl⟩
    cases r with
    | none =>
      have hopens : opens (n.ends x) (.traffic ct) d = [] := by simp [opens, hs, hdec]
      dsimp only
      rw [hopens, receive_traffic_of_refused hs (by rw [hdec]), n.ledger_after_kept rfl]
      refine h.addSent x (by simp) fun isAck init hinit => ?_
      obtain ⟨-, rfl⟩ : isAck = false ∧ init = _ := by simpa using hinit
      rw [localSeq_of_some (l := n.ledger) hs]
      exact UInt64.le_refl _
    | some payload =>
      have hopens : opens (n.ends x) (.traffic ct) d = [ct] := by simp [opens, hs, hdec]
      have hsent : ct ∈ n.ledger.traffic x.other := by
        rw [hopens] at hct
        exact List.mem_filterMap.mpr ⟨_, hct.resolve_right (List.cons_ne_nil _ _), rfl⟩
      dsimp only
      rw [hopens, receive_traffic_of_decrypts hs (by rw [hdec]), n.ledger_after rfl, addSent_nil]
      rw [hdec]
      exact h.accept hs (hwrap s hs) hsent hdec

/-- An accepted init or ack of the other end. -/
theorem Inv.applyUpdate (h : Inv l) {s : Session} (hs : l.session x = some s) {init : SessionInit}
    (hkeySeq : init.keySeq ≤ l.localSeq x.other) (hwrap : s.localKeySeq + 1 ≠ 0)
    (hsafe : SafeUpdate s init) (fresh : BoxKeys) :
    Inv (l.setSession x (s.applyUpdate init fresh)) := by
  have hlocal : (s.applyUpdate init fresh).localKeySeq = s.localKeySeq + 1 := rfl
  refine h.setSession ?_ ?_ hkeySeq ?_
  · rw [localSeq_of_some hs, hlocal]
    grind
  · rw [localSeq_of_some hs, hlocal]
    intro heq
    grind
  · intro ct _ s₀ t hs₀ _ hsp
    cases hs.symm.trans hs₀
    exact hsp.applyUpdate hwrap hsafe fresh

/-- The ack announces the keys of the session. -/
theorem Inv.addAck (h : Inv l) {s : Session} (hs : l.session x = some s) (seq : UInt64) :
    Inv (l.addSent x [.init true (s.makeInit seq)]) := by
  refine h.addSent x (by simp) fun isAck init hinit => ?_
  obtain ⟨-, rfl⟩ : isAck = true ∧ init = _ := by simpa using hinit
  rw [localSeq_of_some hs]
  exact UInt64.le_refl _

theorem Inv.onInit_some {n : Net} (h : Inv n.ledger) {x : Side} {s : Session}
    (hs : (n.ends x).session = some s) {isAck : Bool} {init : SessionInit}
    (hinit : .init isAck init ∈ n.sent x.other) (hwrap : s.localKeySeq + 1 ≠ 0)
    (hsafe : s.seq < init.seq → SafeUpdate s init) (d : Draw) :
    Inv (n.after x ((n.ends x).receive (.init isAck init) d) []).ledger := by
  have hkeySeq : init.keySeq ≤ n.ledger.localSeq x.other :=
    h.init_le x.other init (List.mem_filterMap.mpr ⟨_, hinit, rfl⟩)
  by_cases hstale : init.seq ≤ s.seq
  · -- A stale message changes nothing but the sequence counter.
    have hkept : ((n.ends x).receive (.init isAck init) d).1.session = (n.ends x).session ∧
        ((n.ends x).receive (.init isAck init) d).2 = [] := by
      rw [Endpoint.receive, Endpoint.onInit, hs]
      cases isAck <;> simp [Session.handleAck, Session.handleInit, hstale]
    rw [n.ledger_after_kept hkept.1, hkept.2, addSent_nil]
    exact h
  · have hlt := UInt64.not_le.mp hstale
    have hupdate := h.applyUpdate hs hkeySeq hwrap (hsafe hlt) d.first
    cases isAck with
    | true =>
      rw [receive_ack_of_lt hs hlt, n.ledger_after rfl, addSent_nil, addAccepted_nil]
      exact hupdate
    | false =>
      rw [receive_init_of_lt hs hlt, n.ledger_after rfl, addAccepted_nil]
      exact hupdate.addAck (session_setSession_self _) _

/-- The session that is made for an init or ack of the other end, and its ack. -/
theorem Inv.opened {n : Net} (h : Inv n.ledger) {x : Side} (hs : (n.ends x).session = none)
    {init : SessionInit} (hkeySeq : init.keySeq ≤ n.ledger.localSeq x.other) {d : Draw}
    {seq : UInt64} {s : Session} {ack : Option SessionInit}
    (hopen : ((n.ends x).opening init d).handleInit init seq d.fourth = (s, ack)) :
    s.sendNonce = 0 ∧ Inv ((n.ledger.setSession x s).addSent x
      (ack.map (SessionMsg.init true)).toList) := by
  have hnothing : ∀ ct, ct ∉ n.ledger.accepted x := by
    intro ct hct
    obtain ⟨-, s, -, hsome, -⟩ := h.spent x ct hct
    cases hs.symm.trans hsome
  have hlocal := opening_localKeySeq (n.ends x) init d
  have hremote := opening_remoteKeySeq (n.ends x) init d
  have hnonce := opening_sendNonce (n.ends x) init d
  have hzero : n.ledger.localSeq x = 0 := localSeq_of_none hs
  have hzero' : n.ledger.remoteSeq x = 0 := remoteSeq_of_none hs
  generalize (n.ends x).opening init d = s₀ at hopen hlocal hremote hnonce
  unfold Session.handleInit at hopen
  split at hopen
  · obtain ⟨rfl, rfl⟩ := Prod.mk.inj hopen
    refine ⟨hnonce, (h.setSession ?_ ?_ ?_ fun ct hct => absurd hct (hnothing ct)).addSent x (by simp)
      (by simp)⟩
    · rw [hzero]
      exact UInt64.zero_le
    · rw [hremote, hzero']
      exact fun _ => rfl
    · rw [hremote]
      exact UInt64.zero_le
  · obtain ⟨rfl, rfl⟩ := Prod.mk.inj hopen
    have hone : (s₀.applyUpdate init d.fourth).localKeySeq = 1 := by
      show s₀.localKeySeq + 1 = 1
      rw [hlocal]
      rfl
    refine ⟨hnonce, (h.setSession ?_ ?_ hkeySeq fun ct hct => absurd hct (hnothing ct)).addAck
      (session_setSession_self _) seq⟩
    · rw [hzero]
      exact UInt64.zero_le
    · rw [hone, hzero]
      exact fun heq => absurd heq (by decide)

/-- A session is opened by an init or ack of the other end. -/
theorem Inv.onInit_none {n : Net} (h : Inv n.ledger) {x : Side} (hs : (n.ends x).session = none)
    {isAck : Bool} {init : SessionInit} (hinit : .init isAck init ∈ n.sent x.other) (d : Draw) :
    Inv (n.after x ((n.ends x).receive (.init isAck init) d) []).ledger := by
  have hkeySeq : init.keySeq ≤ n.ledger.localSeq x.other :=
    h.init_le x.other init (List.mem_filterMap.mpr ⟨_, hinit, rfl⟩)
  obtain ⟨seq, hseq⟩ : ∃ seq, seq = nextInitSeq d.unixNow (n.ends x).initSeq := ⟨_, rfl⟩
  obtain ⟨s, ack, hopen⟩ : ∃ s ack,
      ((n.ends x).opening init d).handleInit init seq d.fourth = (s, ack) := ⟨_, _, rfl⟩
  have hrun : (n.ends x).receive (.init isAck init) d =
      Endpoint.ackAndFlush
        { n.ends x with session := some s, buf := none, initSeq := seq } s ack (n.ends x).buf
        d.fifth := by
    rw [Endpoint.receive, Endpoint.onInit, hs]
    simp only [openSession_eq, ← hseq, hopen]
  obtain ⟨hnonce, hack⟩ := h.opened hs hkeySeq hopen
  rw [hrun]
  unfold Endpoint.ackAndFlush
  cases hdata : (n.ends x).buf.bind SessionBuf.data with
  | none =>
    dsimp only
    rw [n.ledger_after rfl, addAccepted_nil]
    exact hack
  | some held =>
    dsimp only
    rw [n.ledger_after rfl, addAccepted_nil, ← addSent_append s]
    refine hack.seal (session_setSession_self s) ?_ (held.1 :: held.2) d.fifth
    rw [hnonce]
    decide

end Steps

/-- One step whose action is allowed by `P`. -/
def StepIf (P : Net → Action → Prop) (n n' : Net) : Prop := ∃ act, P n act ∧ n' = n.step act

/-- One step of the adversary or of an end. -/
abbrev Step : Net → Net → Prop := StepIf Net.Enabled

/-- A step that exhausts no counter and announces no used keys again. -/
abbrev SafeStep : Net → Net → Prop := StepIf fun n act => n.Enabled act ∧ Safe n act


theorem Inv.step {n n' : Net} (h : Inv n.ledger) (hstep : SafeStep n n') : Inv n'.ledger := by
  obtain ⟨act, ⟨henabled, hsafe⟩, rfl⟩ := hstep
  cases act with
  | send x kind msg d => exact h.sendKind x kind msg d hsafe
  | deliver x msg d =>
    cases msg with
    | traffic ct => exact h.onTraffic x (henabled.imp id And.right) fun s hs => (hsafe s hs).1
    | init isAck init =>
      have hinit : .init isAck init ∈ n.sent x.other :=
        henabled.resolve_right (by simp [SessionMsg.traffic?])
      have hopens : opens (n.ends x) (.init isAck init) d = [] := by
        cases hs : (n.ends x).session <;> simp [opens, hs]
      rw [Net.step, hopens]
      cases hs : (n.ends x).session with
      | none => exact h.onInit_none hs hinit d
      | some s => exact h.onInit_some hs hinit (hsafe s hs).1 ((hsafe s hs).2 init rfl) d

theorem Inv.of_steps {n n' : Net} (h : Inv n.ledger)
    (hsteps : Relation.ReflTransGen SafeStep n n') : Inv n'.ledger := by
  induction hsteps with
  | refl => exact h
  | tail _ hstep ih => exact ih.step hstep

theorem Inv.start (initSeq : Side → UInt64) : Inv (Net.start initSeq).ledger where
  remote_le _ := UInt64.le_refl _
  init_le _ _ hinit := absurd hinit List.not_mem_nil
  header_le _ _ hct := absurd hct List.not_mem_nil
  functional _ _ hct := absurd hct List.not_mem_nil
  spent _ _ hct := absurd hct List.not_mem_nil
  nodup _ := List.nodup_nil

/-! ## An update that is not safe -/

/-- The init or ack announces again the key that a session has for the next one of
its peer: as the present one, with the next key sequence, or once more as the next. -/
def Reannounces (s : Session) (init : SessionInit) : Prop :=
  init.keySeq = s.remoteKeySeq + 1 ∧ init.current = s.next ∨
    init.keySeq = s.remoteKeySeq ∧ init.next = s.next

/-- The secret of an arm is all that opening depends on. -/
theorem openWith_congr {s' : Session} {c c' : Case} (h : s'.sharedOf c' = s.sharedOf c) (t : Traffic) :
    s'.openWith t c' = s.openWith t c := by
  rw [Session.openWith, h, Session.openWith]

/-- A message that came in through the `next_send` arm comes in again. -/
theorem readmits {ct payload : Bytes} {nonce : UInt64} {inner : Key}
    (hopen : s.openTraffic ct = some (.nextSend, nonce, inner, payload)) {init : SessionInit}
    (hagain : Reannounces s init) (fresh : BoxKeys) :
    ∃ c, ((s.withNextSendNonce nonce).applyUpdate init fresh).openTraffic ct =
      some (c, nonce, inner, payload) := by
  obtain ⟨t, -, hparse, rfl, hcase, -, -⟩ := Session.openTraffic_eq_some hopen
  obtain ⟨⟨hrks, hlks⟩, hlt⟩ := Session.trafficCase_eq_some_iff.mp hcase
  have hpos : 0 < t.nonce := UInt64.lt_of_le_of_lt UInt64.zero_le hlt
  obtain ⟨s', hs'⟩ : ∃ s', s' = (s.withNextSendNonce t.nonce).applyUpdate init fresh := ⟨_, rfl⟩
  have hlocal : t.lks + 1 = s'.localKeySeq := by
    rw [hs', hlks]
    rfl
  -- The key that was `send` is `recv` now, and its counters start from zero.
  have harm : ∃ c, s'.trafficCase t.rks t.lks t.nonce = some c ∧
      s'.sharedOf c = s.sharedOf .nextSend := by
    have hshared : s.sharedOf .nextSend = salsaBox s.next s.send.priv := s.nextSendShared_eq
    rcases hagain with ⟨hseq, hkey⟩ | ⟨hseq, hkey⟩
    · refine ⟨.current, Session.trafficCase_eq_some_iff.mpr ⟨⟨?_, hlocal⟩, hs' ▸ hpos⟩, ?_⟩
      · rw [hs', hrks, ← hseq]
        rfl
      · rw [hshared, hs', ← hkey]
        rfl
    · refine ⟨.nextRecv, Session.trafficCase_eq_some_iff.mpr ⟨⟨?_, hlocal⟩, hs' ▸ hpos⟩, ?_⟩
      · rw [hs', hrks, ← hseq]
        rfl
      · rw [hshared, hs', ← hkey]
        rfl
  obtain ⟨c, hc, hsecret⟩ := harm
  rw [Session.openTraffic_eq hparse, hcase, Option.bind_some] at hopen
  refine ⟨c, ?_⟩
  rw [← hs', Session.openTraffic_eq hparse, hc, Option.bind_some, openWith_congr hsecret]
  cases hwith : s.openWith t .nextSend with
  | none => simp [hwith] at hopen
  | some opened =>
    rw [hwith, Option.map_some] at hopen
    cases hopen
    rfl

theorem accepted_deliver {n : Net} {x : Side} (hs : (n.ends x).session = some s) {ct payload : Bytes}
    {d : Draw} (hdec : (s.decrypt ct d.first d.now).2 = some payload) :
    (n.step (.deliver x (.traffic ct) d)).accepted x = n.accepted x ++ [ct] ∧
      ((n.step (.deliver x (.traffic ct) d)).ends x).session =
        some (s.decrypt ct d.first d.now).1 := by
  simp [Net.step, Net.after, opens, hs, hdec, receive_traffic_of_decrypts hs hdec]

/-- The message is delivered, the init and the message once more. -/
theorem replayed {n : Net} {x : Side} (hs : (n.ends x).session = some s) {ct payload : Bytes}
    {nonce : UInt64} {inner : Key}
    (hopen : s.openTraffic ct = some (.nextSend, nonce, inner, payload)) {d : Draw}
    (hdue : s.rotationDue d.now = false) {isAck : Bool} {init : SessionInit}
    (hlt : s.seq < init.seq) (hagain : Reannounces s init) (d' d'' : Draw) :
    (((n.step (.deliver x (.traffic ct) d)).step (.deliver x (.init isAck init) d')).step
      (.deliver x (.traffic ct) d'')).accepted x = n.accepted x ++ [ct] ++ [ct] := by
  have hfirst : s.decrypt ct d.first d.now = (s.withNextSendNonce nonce, some payload) := by
    rw [Session.decrypt, Session.decryptDue, hopen, hdue]
    rfl
  obtain ⟨haccepted, hsession⟩ := accepted_deliver hs (congrArg Prod.snd hfirst)
  rw [hfirst] at hsession
  generalize n.step (.deliver x (.traffic ct) d) = n₁ at haccepted hsession ⊢
  have hupdated : ((n₁.step (.deliver x (.init isAck init) d')).ends x).session =
        some ((s.withNextSendNonce nonce).applyUpdate init d'.first) ∧
      (n₁.step (.deliver x (.init isAck init) d')).accepted x = n₁.accepted x := by
    cases isAck with
    | true => simp [Net.step, Net.after, opens, hsession, receive_ack_of_lt hsession hlt]
    | false => simp [Net.step, Net.after, opens, hsession, receive_init_of_lt hsession hlt]
  obtain ⟨c, hagain'⟩ := readmits hopen hagain d'.first
  have hsecond : (((s.withNextSendNonce nonce).applyUpdate init d'.first).decrypt ct d''.first
      d''.now).2 = some payload := by
    rw [Session.decrypt, Session.decryptDue, hagain']
  rw [(accepted_deliver hupdated.1 hsecond).1, hupdated.2, haccepted]

/-- **No session message is accepted twice**, in any run of two ends in which no
accepted init or ack announces the keys of an accepted message again and no counter
is exhausted. And one that does lets a message in again: a message that has just come
in through the `next_send` arm is accepted after it once more. -/
theorem accepted_once :
    (∀ {initSeq : Side → UInt64} {n : Net},
      Relation.ReflTransGen SafeStep (Net.start initSeq) n → ∀ x, (n.accepted x).Nodup) ∧
    ∀ {n : Net} {x : Side} {s : Session} {ct payload : Bytes} {nonce : UInt64} {inner : Key}
      {d : Draw} {isAck : Bool} {init : SessionInit}, (n.ends x).session = some s →
      s.openTraffic ct = some (.nextSend, nonce, inner, payload) → s.rotationDue d.now = false →
      s.seq < init.seq → Reannounces s init → ∀ d' d'' : Draw,
        ¬ ((((n.step (.deliver x (.traffic ct) d)).step (.deliver x (.init isAck init) d')).step
          (.deliver x (.traffic ct) d'')).accepted x).Nodup := by
  refine ⟨fun hrun x => ((Inv.start _).of_steps hrun).nodup x, ?_⟩
  intro n x s ct payload nonce inner d isAck init hs hopen hdue hlt hagain d' d'' hnodup
  rw [replayed hs hopen hdue hlt hagain, List.nodup_append] at hnodup
  exact hnodup.2.2 ct (List.mem_append_right _ (List.mem_singleton_self ct)) ct
    (List.mem_singleton_self ct) rfl

instance (n : Net) (act : Action) : Decidable (n.Enabled act) :=
  match act with
  | .send .. => inferInstanceAs (Decidable True)
  | .deliver .. => inferInstanceAs (Decidable (_ ∨ _))

instance (n : Net) (act : Action) : Decidable (Safe n act) :=
  match act with
  | .send x _ _ _ => inferInstanceAs (Decidable (∀ s ∈ (n.ends x).session, _))
  | .deliver x _ _ => inferInstanceAs (Decidable (∀ s ∈ (n.ends x).session, _))

/-- Play actions chosen from the state they are played in. -/
def play (n : Net) : List (Net → Action) → Net
  | [] => n
  | act :: rest => play (n.step (act n)) rest

def Playable (P : Net → Action → Prop) (n : Net) : List (Net → Action) → Prop
  | [] => True
  | act :: rest => P n (act n) ∧ Playable P (n.step (act n)) rest

instance decidablePlayable (P : Net → Action → Prop) [∀ n act, Decidable (P n act)] :
    (n : Net) → (acts : List (Net → Action)) → Decidable (Playable P n acts)
  | _, [] => .isTrue trivial
  | n, act :: rest =>
      have := decidablePlayable P (n.step (act n)) rest
      inferInstanceAs (Decidable (_ ∧ _))

theorem steps_play {P : Net → Action → Prop} {acts : List (Net → Action)} {n : Net}
    (h : Playable P n acts) : Relation.ReflTransGen (StepIf P) n (play n acts) := by
  induction acts generalizing n with
  | nil => exact .refl
  | cons act rest ih =>
    obtain ⟨hact, hrest⟩ := h
    exact .head ⟨act n, hact, rfl⟩ (ih hrest)

end Guards

section Sample

local instance : Crypto := Sample.lenient

def sampleStart : Net :=
  Net.start fun
    | .a => 100
    | .b => 101

/-- The oldest message of `x` but `k`. -/
def nth (n : Net) (x : Side) (k : Nat) : SessionMsg := (n.sent x).getD k (.traffic [])

/-- `a` opens a session with its first message, and each end rotates on what it
receives, the ack of `a` still being on its way; then, within the same minute, `a` sends
a second message, which `b` accepts without rotating. A byte of garbage makes `a` send a
repair init, `b` takes it in, and the adversary delivers the second message once more. -/
def replayScript : List (Net → Action) :=
  [fun _ => .send .a packetTypeTraffic [1] (Draw.numbered 10 0),
    fun n => .deliver .b (nth n .a 0) (Draw.numbered 20 0),
    fun n => .deliver .a (nth n .b 0) (Draw.numbered 30 0),
    fun n => .deliver .b (nth n .a 2) (Draw.numbered 40 0),
    fun _ => .send .b packetTypeTraffic [2] (Draw.numbered 50 0),
    fun n => .deliver .a (nth n .b 1) (Draw.numbered 60 0),
    fun _ => .send .a packetTypeTraffic [3] (Draw.numbered 70 0),
    fun n => .deliver .b (nth n .a 3) (Draw.numbered 80 0),
    fun _ => .deliver .a (.traffic [0]) (Draw.numbered 90 0),
    fun n => .deliver .b (nth n .a 4) (Draw.numbered 100 0),
    fun n => .deliver .b (nth n .a 3) (Draw.numbered 110 0)]

/-- The second message of `a` is accepted twice. -/
theorem replay_after_repair :
    Relation.ReflTransGen Step sampleStart (play sampleStart replayScript) ∧
      ¬ ((play sampleStart replayScript).accepted .b).Nodup :=
  ⟨steps_play (by decide +kernel), by decide +kernel⟩

/-- Up to the garbage the same run is safe. -/
theorem accepted_once_sample :
    ((play sampleStart (replayScript.take 8)).accepted .b).length = 2 ∧
      ((play sampleStart (replayScript.take 8)).accepted .b).Nodup :=
  ⟨by decide +kernel, accepted_once.1 (steps_play (by decide +kernel)) .b⟩

end Sample

end Replay

end Roots

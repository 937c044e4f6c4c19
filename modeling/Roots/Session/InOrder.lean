import Mathlib.Logic.Relation
import Roots.Crypto.Sample
import Roots.Session.Flight

/-!
# Roots.Session.InOrder

Two sessions over a channel that keeps the order of the messages of each
direction but may lose any of them.

`docs/protocol/70-session.md` describes a window in which one end is a rotation
behind and only one direction carries traffic, and says it cannot show that the
window closes. It does not open on such a channel: after an uncrossed open the
two ends are always **in sync**, which means that exactly one of them is one key
behind (`InSync`). The end that is ahead seals under keys the other accepts in
its `next_send` arm; accepting one may rotate the receiver, and then the roles
are exchanged.
-/

namespace Roots

/-- The two ends of a session. -/
inductive Side where
  | a
  | b
deriving DecidableEq

namespace Side

def other : Side → Side
  | a => b
  | b => a

@[simp]
theorem other_other (x : Side) : x.other.other = x := by cases x <;> rfl

@[simp]
theorem other_ne (x : Side) : x.other ≠ x := by cases x <;> decide

@[simp]
theorem ne_other (x : Side) : x ≠ x.other := by cases x <;> decide

theorem eq_or_eq_other (x z : Side) : z = x ∨ z = x.other := by
  cases x <;> cases z <;> decide

end Side

namespace InOrder

section Ratchet

variable [Crypto]

/-! ## The system -/

/-- Two sessions and the traffic in flight. `chan x` holds what `x` sent and the
channel has neither delivered nor lost, oldest first; the second component is
the payload given to `encrypt`. `sent` counts the calls to `encrypt`. -/
structure Pair where
  sess : Side → Session
  chan : Side → List (Bytes × Bytes)
  sent : Nat

namespace Pair

/-- `x` encrypts `msg` and puts it on its channel. -/
def send (p : Pair) (x : Side) (msg : Bytes) (fresh : BoxKeys) : Pair :=
  let r := (p.sess x).encrypt msg fresh
  { sess := Function.update p.sess x r.1
    chan := Function.update p.chan x (p.chan x ++ [(r.2, msg)])
    sent := p.sent + 1 }

/-- The other end of `x` decrypts `ct`, the oldest message on the channel of `x`;
`rest` stays in flight. -/
def deliver (p : Pair) (x : Side) (ct : Bytes) (rest : List (Bytes × Bytes)) (due : Bool)
    (fresh : BoxKeys) (now : Instant) : Pair :=
  { p with
    sess := Function.update p.sess x.other ((p.sess x.other).decryptDue ct due fresh now).1
    chan := Function.update p.chan x rest }

/-- One step of the system. The rotation check of a delivery comes out either
way, whatever the clock says. -/
inductive Step : Pair → Pair → Prop
  | send (p : Pair) (x : Side) (msg : Bytes) (fresh : BoxKeys) : Step p (p.send x msg fresh)
  | deliver (p : Pair) (x : Side) {ct msg : Bytes} {rest : List (Bytes × Bytes)}
      (head : p.chan x = (ct, msg) :: rest) (due : Bool) (fresh : BoxKeys) (now : Instant) :
      Step p (p.deliver x ct rest due fresh now)
  | lose (p : Pair) (x : Side) {rest : List (Bytes × Bytes)} (sub : rest.Sublist (p.chan x)) :
      Step p { p with chan := Function.update p.chan x rest }

end Pair

/-! ## In sync -/

/-- `x` is one key behind `y`: its view of the keys of `y` is the one before the
last move, while `y` holds the present keys of `x`. -/
structure InSync (x y : Session) : Prop where
  behindSeq : x.remoteKeySeq + 1 = y.localKeySeq
  behindCurrent : x.current = y.recv.pub
  behindNext : x.next = y.send.pub
  aheadSeq : y.remoteKeySeq = x.localKeySeq
  aheadCurrent : y.current = x.send.pub
  aheadNext : y.next = x.nextKeys.pub
  aheadFresh : y.nextSendNonce = 0

/-- The flights of `fs` come in the order in which arm `c` of `s` accepts all of
them. -/
structure Queued (s : Session) (c : Session.Case) (fs : List Flight) : Prop where
  fits : ∀ f ∈ fs, s.Matches f.rks f.lks c ∧ f.pair = s.pairOf c
  rising : (s.guardNonce c :: fs.map Flight.nonce).Pairwise (· < ·)

namespace Queued

variable {s : Session} {c : Session.Case} {fs : List Flight}

theorem nil : Queued s c [] := ⟨by simp, by simp⟩

theorem sublist {fs' : List Flight} (h : Queued s c fs) (hsub : fs'.Sublist fs) :
    Queued s c fs' :=
  ⟨fun f hf => h.fits f (hsub.subset hf),
    h.rising.sublist ((hsub.map Flight.nonce).cons_cons _)⟩

theorem head_lt {f : Flight} (h : Queued s c (f :: fs)) : s.guardNonce c < f.nonce :=
  (List.pairwise_cons.mp h.rising).1 _ (by simp)

/-- Accepting the head moves the arm's counter to its nonce; a session that
differs from `s` only there still expects the rest. -/
theorem tail {s' : Session} {f : Flight} (h : Queued s c (f :: fs))
    (hfits : ∀ g : Flight, s.Matches g.rks g.lks c ∧ g.pair = s.pairOf c →
      s'.Matches g.rks g.lks c ∧ g.pair = s'.pairOf c)
    (hguard : s'.guardNonce c = f.nonce) : Queued s' c fs := by
  refine ⟨fun g hg => hfits g (h.fits g (List.mem_cons_of_mem _ hg)), ?_⟩
  rw [hguard]
  exact (List.pairwise_cons.mp h.rising).2

theorem snoc {f : Flight} (h : Queued s c fs) (hf : s.Matches f.rks f.lks c)
    (hpair : f.pair = s.pairOf c)
    (hlast : ∀ n ∈ s.guardNonce c :: fs.map Flight.nonce, n < f.nonce) :
    Queued s c (fs ++ [f]) := by
  refine ⟨?_, ?_⟩
  · intro g hg
    rcases List.mem_append.mp hg with hg | hg
    · exact h.fits g hg
    · obtain rfl := List.mem_singleton.mp hg
      exact ⟨hf, hpair⟩
  · rw [List.map_append, ← List.cons_append, List.pairwise_append]
    refine ⟨h.rising, by simp, ?_⟩
    intro n hn m hm
    obtain rfl : m = f.nonce := by simpa using hm
    exact hlast n hn

end Queued

/-- The bytes on a channel carry the flights `fs`, payload by payload. -/
def CarriesAll (chan : List (Bytes × Bytes)) (fs : List Flight) : Prop :=
  List.Forall₂ (fun e f => Carries e.1 f ∧ f.msg = e.2) chan fs

/-- What is still to come from a sender stays below its counter. -/
def Below (s : Session) (lo : UInt64) (fs : List Flight) : Prop :=
  ∀ n ∈ lo :: fs.map Flight.nonce, n ≤ s.sendNonce

/-- The invariant, with `x` the end that is behind. What `x` sent is accepted in
the `current` arm of the other end. What the other end sent before its last move
is accepted in the `current` arm of `x`, and what it sent since then in the
`next_send` arm; a rotation of `x` is triggered by the latter, so nothing of the
former can still be in flight behind it. -/
structure Inv (p : Pair) (x : Side) : Prop where
  sync : InSync (p.sess x) (p.sess x.other)
  ahead : ∃ fs, CarriesAll (p.chan x) fs ∧ Queued (p.sess x.other) .current fs ∧
    Below (p.sess x) (p.sess x.other).recvNonce fs
  behind : ∃ old new, CarriesAll (p.chan x.other) (old ++ new) ∧
    Queued (p.sess x) .current old ∧ Queued (p.sess x) .nextSend new ∧
    (∀ f ∈ new, f.inner = (p.sess x.other).nextKeys.pub) ∧
    Below (p.sess x.other) (p.sess x).nextSendNonce new
  counted : ∀ z, (p.sess z).sendNonce.toNat ≤ p.sent

namespace CarriesAll

variable {chan : List (Bytes × Bytes)} {fs : List Flight}

theorem sublist {chan' : List (Bytes × Bytes)} (h : CarriesAll chan fs)
    (hsub : chan'.Sublist chan) : ∃ fs', CarriesAll chan' fs' ∧ fs'.Sublist fs := by
  induction hsub generalizing fs with
  | slnil =>
    cases h
    exact ⟨[], .nil, .slnil⟩
  | cons e _ ih =>
    cases h with
    | cons _ hrest =>
      obtain ⟨fs', hfs', hsub'⟩ := ih hrest
      exact ⟨fs', hfs', hsub'.cons _⟩
  | cons_cons e _ ih =>
    cases h with
    | cons he hrest =>
      obtain ⟨fs', hfs', hsub'⟩ := ih hrest
      exact ⟨_ :: fs', .cons he hfs', hsub'.cons_cons _⟩

theorem snoc {ct : Bytes} {f : Flight} (h : CarriesAll chan fs) (hct : Carries ct f) :
    CarriesAll (chan ++ [(ct, f.msg)]) (fs ++ [f]) :=
  List.rel_append h (.cons ⟨hct, rfl⟩ .nil)

theorem uncons {ct msg : Bytes} {rest : List (Bytes × Bytes)}
    (h : CarriesAll ((ct, msg) :: rest) fs) :
    ∃ f fs', fs = f :: fs' ∧ Carries ct f ∧ f.msg = msg ∧ CarriesAll rest fs' := by
  cases h with
  | cons he hrest => exact ⟨_, _, rfl, he.1, he.2, hrest⟩

end CarriesAll

theorem Below.sublist {s : Session} {lo : UInt64} {fs fs' : List Flight} (h : Below s lo fs)
    (hsub : fs'.Sublist fs) : Below s lo fs' :=
  fun n hn => h n (((hsub.map Flight.nonce).cons_cons lo).subset hn)

/-- Accepting the head keeps the rest below the sender's counter. -/
theorem Below.tail {s : Session} {lo : UInt64} {f : Flight} {fs : List Flight}
    (h : Below s lo (f :: fs)) : Below s f.nonce fs :=
  fun n hn => h n (List.mem_cons_of_mem _ hn)

/-! ## One step -/

section Sends

variable {x y : Session}

/-- What the end that is behind seals fits the `current` arm of the other end. -/
theorem InSync.flight_current (h : InSync x y) (n : UInt64) (msg : Bytes) :
    y.Matches ((x.withSendNonce n).flight msg).rks ((x.withSendNonce n).flight msg).lks
        .current ∧
      ((x.withSendNonce n).flight msg).pair = y.pairOf .current := by
  refine ⟨⟨h.aheadSeq.symm, h.behindSeq⟩, ?_⟩
  show s(x.current, x.send.pub) = s(y.current, y.recv.pub)
  rw [h.behindCurrent, h.aheadCurrent, Sym2.eq_swap]

/-- What the end that is ahead seals fits the `next_send` arm of the other end. -/
theorem InSync.flight_nextSend (h : InSync x y) (n : UInt64) (msg : Bytes) :
    x.Matches ((y.withSendNonce n).flight msg).rks ((y.withSendNonce n).flight msg).lks
        .nextSend ∧
      ((y.withSendNonce n).flight msg).pair = x.pairOf .nextSend := by
  refine ⟨⟨h.behindSeq.symm, h.aheadSeq⟩, ?_⟩
  show s(y.current, y.send.pub) = s(x.next, x.send.pub)
  rw [h.behindNext, h.aheadCurrent, Sym2.eq_swap]

end Sends

/-- The next nonce is above everything the sender has counted so far. -/
theorem Below.lt_succ {s : Session} {lo : UInt64} {fs : List Flight} (h : Below s lo fs)
    (hwrap : s.sendNonce + 1 ≠ 0) : ∀ n ∈ lo :: fs.map Flight.nonce, n < s.sendNonce + 1 := by
  intro n hn
  have hle := h n hn
  grind

/-- Appending the next message keeps everything below the new counter. -/
theorem Below.snoc {s : Session} {lo : UInt64} {fs : List Flight} {f : Flight}
    (h : Below s lo fs) (hwrap : s.sendNonce + 1 ≠ 0) (hf : f.nonce = s.sendNonce + 1) :
    Below (s.withSendNonce (s.sendNonce + 1)) lo (fs ++ [f]) := by
  intro n hn
  rw [List.map_append, ← List.cons_append] at hn
  rcases List.mem_append.mp hn with hn | hn
  · exact UInt64.le_of_lt (h.lt_succ hwrap n hn)
  · obtain rfl : n = f.nonce := by simpa using hn
    exact UInt64.le_of_eq hf

namespace Pair

variable {p : Pair} {x : Side} {msg : Bytes} {fresh : BoxKeys}

theorem send_sess_self (hwrap : (p.sess x).sendNonce + 1 ≠ 0) :
    (p.send x msg fresh).sess x =
      (p.sess x).withSendNonce ((p.sess x).sendNonce + 1) := by
  simp only [send, Session.encrypt, Function.update_self]
  exact Session.advanceNonce_of_ne hwrap

theorem send_sess_of_ne {z : Side} (h : z ≠ x) : (p.send x msg fresh).sess z = p.sess z :=
  Function.update_of_ne h _ _

theorem send_chan_self (hwrap : (p.sess x).sendNonce + 1 ≠ 0) :
    (p.send x msg fresh).chan x = p.chan x ++
      [(((p.sess x).withSendNonce ((p.sess x).sendNonce + 1)).sealTraffic msg, msg)] := by
  simp only [send, Session.encrypt, Function.update_self]
  rw [Session.advanceNonce_of_ne hwrap]

theorem send_chan_of_ne {z : Side} (h : z ≠ x) : (p.send x msg fresh).chan z = p.chan z :=
  Function.update_of_ne h _ _

theorem send_sendNonce_le (hwrap : (p.sess x).sendNonce + 1 ≠ 0)
    (h : ∀ z, (p.sess z).sendNonce.toNat ≤ p.sent) (z : Side) :
    ((p.send x msg fresh).sess z).sendNonce.toNat ≤ (p.send x msg fresh).sent := by
  have hz := h z
  by_cases hzx : z = x
  · subst hzx
    rw [send_sess_self hwrap]
    have hadd : ((p.sess z).sendNonce + 1).toNat ≤ (p.sess z).sendNonce.toNat + 1 := by
      rw [UInt64.toNat_add]
      exact Nat.mod_le _ _
    exact hadd.trans (Nat.succ_le_succ hz)
  · rw [send_sess_of_ne hzx]
    exact hz.trans (Nat.le_succ _)

end Pair

theorem Inv.send (law : BoxRoundtrip) {p : Pair} {x : Side} (h : Inv p x) (z : Side)
    (msg : Bytes) (fresh : BoxKeys) (hwrap : (p.sess z).sendNonce + 1 ≠ 0) :
    Inv (p.send z msg fresh) x := by
  obtain ⟨sync, ⟨fs, hfs, hq, hb⟩, ⟨old, new, hon, hqo, hqn, hinner, hbn⟩, counted⟩ := h
  let sealed := (p.sess z).withSendNonce ((p.sess z).sendNonce + 1)
  have hcarry : Carries (sealed.sealTraffic msg) (sealed.flight msg) :=
    Session.carries_sealTraffic law sealed msg
  have hcount : ∀ w, ((p.send z msg fresh).sess w).sendNonce.toNat ≤ (p.send z msg fresh).sent :=
    Pair.send_sendNonce_le hwrap counted
  rcases Side.eq_or_eq_other x z with rfl | rfl
  · -- The end that is behind sends: one more message for the `current` arm.
    have hself : (p.send z msg fresh).sess z = sealed := Pair.send_sess_self hwrap
    have hother : (p.send z msg fresh).sess z.other = p.sess z.other :=
      Pair.send_sess_of_ne (Side.other_ne z)
    obtain ⟨hmatch, hpair⟩ := sync.flight_current ((p.sess z).sendNonce + 1) msg
    refine ⟨?_, ⟨fs ++ [sealed.flight msg], ?_, ?_, ?_⟩, ⟨old, new, ?_, ?_, ?_, ?_, ?_⟩, hcount⟩
    · rw [hself, hother]
      exact ⟨sync.1, sync.2, sync.3, sync.4, sync.5, sync.6, sync.7⟩
    · rw [Pair.send_chan_self hwrap]
      exact hfs.snoc hcarry
    · rw [hother]
      exact hq.snoc hmatch hpair (hb.lt_succ hwrap)
    · rw [hself, hother]
      exact hb.snoc hwrap rfl
    · rw [Pair.send_chan_of_ne (Side.other_ne z)]
      exact hon
    · rw [hself]
      exact ⟨hqo.1, hqo.2⟩
    · rw [hself]
      exact ⟨hqn.1, hqn.2⟩
    · rw [hother]
      exact hinner
    · rw [hself, hother]
      exact hbn
  · -- The end that is ahead sends: one more message for the `next_send` arm.
    have hself : (p.send x.other msg fresh).sess x.other = sealed := Pair.send_sess_self hwrap
    have hx : (p.send x.other msg fresh).sess x = p.sess x :=
      Pair.send_sess_of_ne (Side.ne_other x)
    obtain ⟨hmatch, hpair⟩ := sync.flight_nextSend ((p.sess x.other).sendNonce + 1) msg
    refine ⟨?_, ⟨fs, ?_, ?_, ?_⟩, ⟨old, new ++ [sealed.flight msg], ?_, ?_, ?_, ?_, ?_⟩, hcount⟩
    · rw [hself, hx]
      exact ⟨sync.1, sync.2, sync.3, sync.4, sync.5, sync.6, sync.7⟩
    · rw [Pair.send_chan_of_ne (Side.ne_other x)]
      exact hfs
    · rw [hself]
      exact ⟨hq.1, hq.2⟩
    · rw [hself, hx]
      exact hb
    · rw [Pair.send_chan_self hwrap, ← List.append_assoc]
      exact hon.snoc hcarry
    · rw [hx]
      exact hqo
    · rw [hx]
      exact hqn.snoc hmatch hpair (hbn.lt_succ hwrap)
    · rw [hself]
      intro f hf
      rcases List.mem_append.mp hf with hf | hf
      · exact hinner f hf
      · obtain rfl := List.mem_singleton.mp hf
        rfl
    · rw [hself, hx]
      exact hbn.snoc hwrap rfl

theorem Inv.lose {p : Pair} {x : Side} (h : Inv p x) (z : Side) {rest : List (Bytes × Bytes)}
    (hsub : rest.Sublist (p.chan z)) :
    Inv { p with chan := Function.update p.chan z rest } x := by
  obtain ⟨sync, ⟨fs, hfs, hq, hb⟩, ⟨old, new, hon, hqo, hqn, hinner, hbn⟩, counted⟩ := h
  rcases Side.eq_or_eq_other x z with rfl | rfl
  · obtain ⟨fs', hfs', hsub'⟩ := hfs.sublist hsub
    refine ⟨sync, ⟨fs', ?_, hq.sublist hsub', hb.sublist hsub'⟩,
      ⟨old, new, ?_, hqo, hqn, hinner, hbn⟩, counted⟩
    · simpa using hfs'
    · simpa using hon
  · obtain ⟨fs', hfs', hsub'⟩ := hon.sublist hsub
    obtain ⟨old', new', rfl, hold', hnew'⟩ := List.sublist_append_iff.mp hsub'
    refine ⟨sync, ⟨fs, ?_, hq, hb⟩, ⟨old', new', ?_, hqo.sublist hold', hqn.sublist hnew',
      fun f hf => hinner f (hnew'.subset hf), hbn.sublist hnew'⟩, counted⟩
    · simpa using hfs
    · simpa using hfs'

/-- A rotation of the end that is behind, on a message that shows it the present
inner key of the other end, exchanges the roles. -/
theorem InSync.rotate {x y : Session} (h : InSync x y) {inner : Key} (hinner : inner = y.nextKeys.pub)
    (n : UInt64) (fresh : BoxKeys) (now : Instant) :
    InSync y ((x.withNextSendNonce n).rotate inner n fresh now) where
  behindSeq := congrArg (· + 1) h.aheadSeq
  behindCurrent := h.aheadCurrent
  behindNext := h.aheadNext
  aheadSeq := h.behindSeq
  aheadCurrent := h.behindNext
  aheadNext := hinner
  aheadFresh := rfl

/-- What the sender seals under its present keys moves from the `next_send` arm to
the `current` arm when the receiver rotates. -/
theorem Queued.rotate {x : Session} {f : Flight} {fs : List Flight}
    (h : Queued x .nextSend (f :: fs)) (inner : Key) (fresh : BoxKeys) (now : Instant) :
    Queued ((x.withNextSendNonce f.nonce).rotate inner f.nonce fresh now) .current fs := by
  refine ⟨?_, (List.pairwise_cons.mp h.rising).2⟩
  intro g hg
  obtain ⟨⟨hrks, hlks⟩, hpair⟩ := h.fits g (List.mem_cons_of_mem _ hg)
  exact ⟨⟨hrks, congrArg (· + 1) hlks⟩, hpair⟩

namespace Pair

variable {p : Pair} {z : Side} {ct msg : Bytes} {rest : List (Bytes × Bytes)} {due : Bool}
  {fresh : BoxKeys} {now : Instant}

theorem deliver_sess_other {s' : Session} {r : Option Bytes}
    (h : (p.sess z.other).decryptDue ct due fresh now = (s', r)) :
    (p.deliver z ct rest due fresh now).sess z.other = s' := by
  simp [deliver, h]

theorem deliver_sess_self : (p.deliver z ct rest due fresh now).sess z = p.sess z :=
  Function.update_of_ne (Side.ne_other z) _ _

theorem deliver_chan_self : (p.deliver z ct rest due fresh now).chan z = rest :=
  Function.update_self _ _ _

theorem deliver_chan_other :
    (p.deliver z ct rest due fresh now).chan z.other = p.chan z.other :=
  Function.update_of_ne (Side.other_ne z) _ _

theorem deliver_sendNonce_le {s' : Session} {r : Option Bytes}
    (h : (p.sess z.other).decryptDue ct due fresh now = (s', r))
    (hs' : s'.sendNonce.toNat ≤ p.sent) (hp : ∀ w, (p.sess w).sendNonce.toNat ≤ p.sent)
    (w : Side) : ((p.deliver z ct rest due fresh now).sess w).sendNonce.toNat ≤ p.sent := by
  rcases Side.eq_or_eq_other z w with rfl | rfl
  · rw [deliver_sess_self]
    exact hp w
  · rw [deliver_sess_other h]
    exact hs'

end Pair

/-- A message from the end that is behind. -/
theorem Inv.deliver_ahead (law : BoxRoundtrip) {p : Pair} {x : Side} (h : Inv p x)
    {ct msg : Bytes} {rest : List (Bytes × Bytes)} (head : p.chan x = (ct, msg) :: rest)
    (due : Bool) (fresh : BoxKeys) (now : Instant) :
    ((p.sess x.other).decryptDue ct due fresh now).2 = some msg ∧
      Inv (p.deliver x ct rest due fresh now) x := by
  obtain ⟨sync, ⟨fs, hfs, hq, hb⟩, ⟨old, new, hon, hqo, hqn, hinner, hbn⟩, counted⟩ := h
  rw [head] at hfs
  obtain ⟨f, fs', rfl, hct, rfl, hrest⟩ := hfs.uncons
  obtain ⟨hmatch, hpair⟩ := hq.fits f (List.mem_cons_self ..)
  have hdec := Session.decryptDue_of_carries law hct hmatch hpair hq.head_lt due fresh now
  refine ⟨by rw [hdec], ?_, ⟨fs', ?_, ?_, ?_⟩, ⟨old, new, ?_, ?_, ?_, ?_, ?_⟩,
    Pair.deliver_sendNonce_le hdec (counted x.other) counted⟩
  · rw [Pair.deliver_sess_self, Pair.deliver_sess_other hdec]
    exact ⟨sync.1, sync.2, sync.3, sync.4, sync.5, sync.6, sync.7⟩
  · rw [Pair.deliver_chan_self]
    exact hrest
  · rw [Pair.deliver_sess_other hdec]
    exact hq.tail (fun _ hg => hg) rfl
  · rw [Pair.deliver_sess_self, Pair.deliver_sess_other hdec]
    exact hb.tail
  · rw [Pair.deliver_chan_other]
    exact hon
  · rw [Pair.deliver_sess_self]
    exact hqo
  · rw [Pair.deliver_sess_self]
    exact hqn
  · rw [Pair.deliver_sess_other hdec]
    exact hinner
  · rw [Pair.deliver_sess_self, Pair.deliver_sess_other hdec]
    exact hbn

/-- A message from the end that is ahead: one under its older keys changes nothing
but a counter, one under its present keys may rotate the receiver. -/
theorem Inv.deliver_behind (law : BoxRoundtrip) {p : Pair} {y : Side} (h : Inv p y.other)
    {ct msg : Bytes} {rest : List (Bytes × Bytes)} (head : p.chan y = (ct, msg) :: rest)
    (due : Bool) (fresh : BoxKeys) (now : Instant) :
    ((p.sess y.other).decryptDue ct due fresh now).2 = some msg ∧
      ∃ x, Inv (p.deliver y ct rest due fresh now) x := by
  obtain ⟨sync, ⟨fs, hfs, hq, hb⟩, ⟨old, new, hon, hqo, hqn, hinner, hbn⟩, counted⟩ := h
  rw [Side.other_other] at sync hq hb hon hinner hbn
  rw [head] at hon
  cases old with
  | cons f old =>
    obtain ⟨f, fs', hcons, hct, rfl, hrest⟩ := hon.uncons
    obtain ⟨rfl, rfl⟩ := List.cons.inj hcons
    obtain ⟨hmatch, hpair⟩ := hqo.fits _ (List.mem_cons_self ..)
    have hdec := Session.decryptDue_of_carries law hct hmatch hpair hqo.head_lt due fresh now
    refine ⟨by rw [hdec], y.other, ?_, ⟨fs, ?_, ?_, ?_⟩, ⟨old, new, ?_, ?_, ?_, ?_, ?_⟩,
      Pair.deliver_sendNonce_le hdec (counted y.other) counted⟩ <;>
      simp only [Side.other_other, Pair.deliver_sess_other hdec, Pair.deliver_sess_self,
        Pair.deliver_chan_self, Pair.deliver_chan_other]
    · exact ⟨sync.1, sync.2, sync.3, sync.4, sync.5, sync.6, sync.7⟩
    · exact hfs
    · exact hq
    · exact hb
    · exact hrest
    · exact hqo.tail (fun _ hg => hg) rfl
    · exact ⟨hqn.1, hqn.2⟩
    · exact hinner
    · exact hbn
  | nil =>
    obtain ⟨f, new', rfl, hct, rfl, hrest⟩ := hon.uncons
    obtain ⟨hmatch, hpair⟩ := hqn.fits _ (List.mem_cons_self ..)
    have hdec := Session.decryptDue_of_carries law hct hmatch hpair hqn.head_lt due fresh now
    refine ⟨by rw [hdec], ?_⟩
    cases due with
    | false =>
      refine ⟨y.other, ?_, ⟨fs, ?_, ?_, ?_⟩, ⟨[], new', ?_, Queued.nil, ?_, ?_, ?_⟩,
        Pair.deliver_sendNonce_le hdec (counted y.other) counted⟩ <;>
        simp only [Side.other_other, Pair.deliver_sess_other hdec, Pair.deliver_sess_self,
          Pair.deliver_chan_self, Pair.deliver_chan_other]
      · exact ⟨sync.1, sync.2, sync.3, sync.4, sync.5, sync.6, sync.7⟩
      · exact hfs
      · exact hq
      · exact hb
      · exact hrest
      · exact hqn.tail (fun _ hg => hg) rfl
      · exact fun g hg => hinner g (List.mem_cons_of_mem _ hg)
      · exact hbn.tail
    | true =>
      -- The receiver rotates, and now the sender is the one that is behind.
      refine ⟨y, ?_, ⟨new', ?_, ?_, ?_⟩, ⟨fs, [], ?_, ?_, ⟨by simp, by simp⟩, by simp, ?_⟩,
        Pair.deliver_sendNonce_le hdec (Nat.zero_le _) counted⟩ <;>
        simp only [Pair.deliver_sess_other hdec, Pair.deliver_sess_self,
          Pair.deliver_chan_self, Pair.deliver_chan_other]
      · exact sync.rotate (hinner f (List.mem_cons_self ..)) f.nonce fresh now
      · exact hrest
      · exact hqn.rotate f.inner fresh now
      · exact hbn.tail
      · rw [List.append_nil]
        exact hfs
      · exact hq
      · intro n hn
        rw [List.map_nil, List.mem_singleton, sync.aheadFresh] at hn
        rw [hn]
        exact UInt64.le_refl 0

/-- The payload a delivery returns in a state that satisfies the invariant. -/
theorem Inv.delivers (law : BoxRoundtrip) {p : Pair} {x : Side} (h : Inv p x) (z : Side)
    {ct msg : Bytes} {rest : List (Bytes × Bytes)} (head : p.chan z = (ct, msg) :: rest)
    (due : Bool) (fresh : BoxKeys) (now : Instant) :
    ((p.sess z.other).decryptDue ct due fresh now).2 = some msg ∧
      ∃ x', Inv (p.deliver z ct rest due fresh now) x' := by
  rcases Side.eq_or_eq_other x z with rfl | rfl
  · obtain ⟨hpayload, hinv⟩ := h.deliver_ahead law head due fresh now
    exact ⟨hpayload, z, hinv⟩
  · rw [← Side.other_other x] at h
    exact h.deliver_behind law head due fresh now

theorem succ_ne_zero_of_lt {s : Session} (h : s.sendNonce.toNat < 2 ^ 64 - 1) :
    s.sendNonce + 1 ≠ 0 := by
  intro hzero
  have hnat := congrArg UInt64.toNat hzero
  rw [UInt64.toNat_add] at hnat
  have hone : (1 : UInt64).toNat = 1 := rfl
  have hzero' : (0 : UInt64).toNat = 0 := rfl
  omega

/-- The run lemma: as long as no counter is exhausted, one of the ends is exactly
one key behind. -/
theorem Inv.of_steps (law : BoxRoundtrip) {p q : Pair} (hstart : ∃ x, Inv p x)
    (hsteps : Relation.ReflTransGen Pair.Step p q) (hsent : q.sent < 2 ^ 64 - 1) :
    ∃ x, Inv q x := by
  induction hsteps with
  | refl => exact hstart
  | @tail r _ _ hstep ih =>
    cases hstep with
    | send z msg fresh =>
      have hr : r.sent + 1 < 2 ^ 64 - 1 := hsent
      obtain ⟨x, hx⟩ := ih (by omega)
      have hz := hx.counted z
      exact ⟨x, hx.send law z msg fresh (succ_ne_zero_of_lt (by omega))⟩
    | deliver z head due fresh now =>
      obtain ⟨x, hx⟩ := ih hsent
      exact (hx.delivers law z head due fresh now).2
    | lose z hsub =>
      obtain ⟨x, hx⟩ := ih hsent
      exact ⟨x, hx.lose z hsub⟩

/-! ## After an uncrossed open -/

/-- The init of an initiator that has buffered `send` and `next`. -/
def openingInit (send next : BoxKeys) (seq : UInt64) : SessionInit where
  current := send.pub
  next := next.pub
  keySeq := 0
  seq := seq

/-- `a` and `b` come out of one uncrossed open that `a` initiated: `b` creates its
session from the init and answers with an ack; `a` creates its session from the
ack, adopts the keys it had buffered, and either just takes the ack in
(`handle_ack`) or, as the router does for a peer it has no session with, handles
it as an init and answers with an ack of its own. Sequence numbers come from
`next_init_seq`: never zero, and rising at each end. -/
inductive Opened : Session → Session → Prop
  | ack {send next : BoxKeys} {seq ackSeq : UInt64} {f₀ f₁ f₂ f₃ g₀ g₁ g₂ : BoxKeys}
      {ack : SessionInit} {b : Session}
      (responds : (Session.forInit (openingInit send next seq) f₀ f₁ f₂).handleInit
        (openingInit send next seq) ackSeq f₃ = (b, some ack))
      (positive : ackSeq ≠ 0) (g₃ : BoxKeys) :
      Opened (((Session.forInit ack g₀ g₁ g₂).adoptBuffered send next).handleAck ack g₃) b
  | ackAck {send next : BoxKeys} {seq ackSeq ackSeq' : UInt64}
      {f₀ f₁ f₂ f₃ g₀ g₁ g₂ g₃ : BoxKeys} {ack ack' : SessionInit} {a b : Session}
      (responds : (Session.forInit (openingInit send next seq) f₀ f₁ f₂).handleInit
        (openingInit send next seq) ackSeq f₃ = (b, some ack))
      (answers : ((Session.forInit ack g₀ g₁ g₂).adoptBuffered send next).handleInit
        ack ackSeq' g₃ = (a, some ack'))
      (rising : seq < ackSeq') (f₄ : BoxKeys) :
      Opened a (b.handleAck ack' f₄)

/-- The inversion of an accepted init. -/
theorem handleInit_eq_some {s s' : Session} {init ack : SessionInit} {ackSeq : UInt64}
    {fresh : BoxKeys} (h : s.handleInit init ackSeq fresh = (s', some ack)) :
    s' = s.applyUpdate init fresh ∧ ack = s'.makeInit ackSeq := by
  unfold Session.handleInit at h
  split at h
  · cases h
  · obtain ⟨rfl, hack⟩ := Prod.mk.inj h
    exact ⟨rfl, (Option.some.inj hack).symm⟩

namespace Pair

/-- Two sessions with nothing in flight. -/
def start (a b : Session) : Pair where
  sess := fun
    | .a => a
    | .b => b
  chan := fun _ => []
  sent := 0

end Pair

theorem Inv.start {p : Pair} {x : Side} (hsync : InSync (p.sess x) (p.sess x.other))
    (hchan : ∀ z, p.chan z = []) (hrecv : (p.sess x.other).recvNonce = 0)
    (hnext : (p.sess x).nextSendNonce = 0)
    (hcount : ∀ z, (p.sess z).sendNonce.toNat ≤ p.sent) : Inv p x := by
  refine ⟨hsync, ⟨[], ?_, Queued.nil, ?_⟩, ⟨[], [], ?_, Queued.nil, Queued.nil, by simp, ?_⟩,
    hcount⟩
  · rw [hchan]
    exact .nil
  · intro n hn
    obtain rfl : n = 0 := by simpa [hrecv] using hn
    exact UInt64.zero_le
  · rw [hchan]
    exact .nil
  · intro n hn
    obtain rfl : n = 0 := by simpa [hnext] using hn
    exact UInt64.zero_le

/-- One init and the ack to it, both accepted, put any two sessions in sync, the
one that answered being behind. The initiator of an open is such a session too:
with its buffered keys adopted, its opening init is its own `make_init`. -/
theorem InSync.of_repair (a b : Session) (seq ackSeq : UInt64) (f g : BoxKeys) :
    InSync (b.applyUpdate (a.makeInit seq) f)
      (a.applyUpdate ((b.applyUpdate (a.makeInit seq) f).makeInit ackSeq) g) where
  behindSeq := rfl
  behindCurrent := rfl
  behindNext := rfl
  aheadSeq := rfl
  aheadCurrent := rfl
  aheadNext := rfl
  aheadFresh := rfl

theorem Opened.inv {a b : Session} (h : Opened a b) : ∃ x, Inv (Pair.start a b) x := by
  cases h with
  | @ack send next seq ackSeq f₀ f₁ f₂ f₃ g₀ g₁ g₂ ack b responds positive g₃ =>
    obtain ⟨rfl, rfl⟩ := handleInit_eq_some responds
    set b₀ := Session.forInit (openingInit send next seq) f₀ f₁ f₂
    set ack := (b₀.applyUpdate (openingInit send next seq) f₃).makeInit ackSeq
    set a₀ := (Session.forInit ack g₀ g₁ g₂).adoptBuffered send next
    have hlt : a₀.seq < ack.seq := by
      show ackSeq - 1 < ackSeq
      grind
    rw [Session.handleAck_of_lt hlt]
    refine ⟨.b, Inv.start ?_ (fun _ => rfl) rfl rfl ?_⟩
    · exact InSync.of_repair a₀ b₀ seq ackSeq f₃ g₃
    · intro z
      cases z <;> exact Nat.le_refl 0
  | @ackAck send next seq ackSeq ackSeq' f₀ f₁ f₂ f₃ g₀ g₁ g₂ g₃ ack ack' a b responds answers
      rising f₄ =>
    obtain ⟨rfl, rfl⟩ := handleInit_eq_some responds
    obtain ⟨rfl, rfl⟩ := handleInit_eq_some answers
    rw [Session.handleAck_of_lt (show seq < ackSeq' from rising)]
    refine ⟨.a, Inv.start ?_ (fun _ => rfl) rfl rfl ?_⟩
    · exact InSync.of_repair _ _ ackSeq ackSeq' g₃ f₄
    · intro z
      cases z <;> exact Nat.le_refl 0

/-- The one-way state of the documentation: an end whose header fits no arm of the
other end, so that whatever it sends is refused. -/
def OneWaySkew (p : Pair) : Prop :=
  ∃ x, ∀ c, ¬ (p.sess x.other).Matches (p.sess x).localKeySeq (p.sess x).remoteKeySeq c

theorem Inv.not_oneWaySkew {p : Pair} {x : Side} (h : Inv p x) : ¬ OneWaySkew p := by
  rintro ⟨z, hz⟩
  rcases Side.eq_or_eq_other x z with rfl | rfl
  · exact hz .current ⟨h.sync.aheadSeq.symm, h.sync.behindSeq⟩
  · rw [Side.other_other] at hz
    exact hz .nextSend ⟨h.sync.behindSeq.symm, h.sync.aheadSeq⟩

/-- **Sessions never lose sync on an in-order channel.** From any uncrossed open,
whatever the two ends send, whatever is lost, and however each rotation check
comes out: a message that reaches the head of its channel decrypts to exactly the
payload it was made from, and neither end is ever in the one-way state. -/
theorem inOrder_delivers (law : BoxRoundtrip) {a b : Session} (hopen : Opened a b) {p : Pair}
    (hrun : Relation.ReflTransGen Pair.Step (Pair.start a b) p) (hsent : p.sent < 2 ^ 64 - 1) :
    ¬ OneWaySkew p ∧
      ∀ (x : Side) (ct msg : Bytes) (rest : List (Bytes × Bytes)),
        p.chan x = (ct, msg) :: rest → ∀ (due : Bool) (fresh : BoxKeys) (now : Instant),
          ((p.sess x.other).decryptDue ct due fresh now).2 = some msg := by
  obtain ⟨x, hx⟩ := Inv.of_steps law hopen.inv hrun hsent
  refine ⟨hx.not_oneWaySkew, ?_⟩
  intro z ct msg rest head due fresh now
  exact (hx.delivers law z head due fresh now).1

end Ratchet

section Sample

local instance : Crypto := Sample.lenient

/-- The key pair of the sample instance with secret `n`. -/
def sampleKeys (n : UInt8) : BoxKeys := freshBox (Sample.smallKey n)

/-- The end that answers the init of `sampleInitiator`. -/
def sampleResponder : Session :=
  let init := openingInit (sampleKeys 1) (sampleKeys 2) 100
  (Session.forInit init (sampleKeys 3) (sampleKeys 4) (sampleKeys 5)).applyUpdate init
    (sampleKeys 6)

/-- The end that opened, with the ack of `sampleResponder` taken in. -/
def sampleInitiator : Session :=
  let ack := sampleResponder.makeInit 101
  ((Session.forInit ack (sampleKeys 7) (sampleKeys 8) (sampleKeys 9)).adoptBuffered
    (sampleKeys 1) (sampleKeys 2)).handleAck ack (sampleKeys 10)

theorem sample_opened : Opened sampleInitiator sampleResponder := by
  have hlt : ¬ (100 : UInt64) ≤ 100 - 1 := by decide
  exact .ack (if_neg hlt) (by decide) (sampleKeys 10)

theorem inOrder_delivers_sample :
    Opened sampleInitiator sampleResponder ∧
      (sampleResponder.decryptDue (sampleInitiator.encrypt [7] (sampleKeys 11)).2 true
        (sampleKeys 12) 0).2 = some [7] :=
  ⟨sample_opened, (inOrder_delivers Sample.boxRoundtrip sample_opened
    (.single (.send (Pair.start sampleInitiator sampleResponder) .a [7] (sampleKeys 11)))
    (by decide)).2 .a _ _ [] rfl true (sampleKeys 12) 0⟩

end Sample

/-! ## Init repair -/

section Repair

variable [Crypto]

/-- `x` sends `m` to `y` and then `y` sends `m'` to `x`: what the two receivers
decrypt. -/
def exchange (x y : Session) (m m' : Bytes) (f g f' g' : BoxKeys) (now now' : Instant) :
    Option Bytes × Option Bytes :=
  let sent := x.encrypt m f
  let got := y.decrypt sent.2 g now
  let sent' := got.1.encrypt m' f'
  let got' := sent.1.decrypt sent'.2 g' now'
  (got.2, got'.2)

/-- Both ends send before either receives. -/
def crossing (x y : Session) (m m' : Bytes) (f g f' g' : BoxKeys) (now now' : Instant) :
    Option Bytes × Option Bytes :=
  let sent := x.encrypt m f
  let sent' := y.encrypt m' f'
  ((sent'.1.decrypt sent.2 g now).2, (sent.1.decrypt sent'.2 g' now').2)

/-- A delivery keeps the send counter or, by a rotation, resets it. -/
theorem decryptDue_sendNonce (s : Session) (ct : Bytes) (due : Bool) (fresh : BoxKeys)
    (now : Instant) : (s.decryptDue ct due fresh now).1.sendNonce = s.sendNonce ∨
      (s.decryptDue ct due fresh now).1.sendNonce = 0 := by
  unfold Session.decryptDue
  cases s.openTraffic ct with
  | none => exact .inl rfl
  | some r =>
    obtain ⟨c, n, inner, payload⟩ := r
    cases c with
    | current => exact .inl rfl
    | nextSend =>
      cases due with
      | false => exact .inl rfl
      | true => exact .inr rfl
    | nextRecv =>
      cases due with
      | false => exact .inl rfl
      | true => exact .inr rfl

theorem Inv.exchange (law : BoxRoundtrip) {p : Pair} {x : Side} (h : Inv p x) (z : Side)
    (hempty : ∀ w, p.chan w = []) (hwrap : ∀ w, (p.sess w).sendNonce + 1 ≠ 0)
    (m m' : Bytes) (f g f' g' : BoxKeys) (now now' : Instant) :
    exchange (p.sess z) (p.sess z.other) m m' f g f' g' now now' = (some m, some m') := by
  have hother : (p.send z m f).sess z.other = p.sess z.other :=
    Pair.send_sess_of_ne (Side.other_ne z)
  have hhead : (p.send z m f).chan z = [(((p.sess z).encrypt m f).2, m)] := by
    simp [Pair.send, hempty]
  obtain ⟨hgot, x', hx'⟩ := (h.send law z m f (hwrap z)).delivers law z hhead
    ((p.sess z.other).rotationDue now) g now
  rw [hother] at hgot
  -- The answer leaves from the session the delivery produced.
  obtain ⟨q, hq⟩ : ∃ q, q = (p.send z m f).deliver z ((p.sess z).encrypt m f).2 []
    ((p.sess z.other).rotationDue now) g now := ⟨_, rfl⟩
  rw [← hq] at hx'
  have hqz : q.sess z = ((p.sess z).encrypt m f).1 := by
    rw [hq, Pair.deliver_sess_self]
    exact Function.update_self _ _ _
  have hqo : q.sess z.other = ((p.sess z.other).decrypt ((p.sess z).encrypt m f).2 g now).1 := by
    rw [hq, Pair.deliver_sess_other (Prod.mk.eta).symm, hother]
    rfl
  have hqchan : q.chan z.other = [] := by
    rw [hq, Pair.deliver_chan_other, Pair.send_chan_of_ne (Side.other_ne z), hempty]
  have hwrap' : (q.sess z.other).sendNonce + 1 ≠ 0 := by
    rw [hqo, Session.decrypt]
    rcases decryptDue_sendNonce (p.sess z.other) ((p.sess z).encrypt m f).2
      ((p.sess z.other).rotationDue now) g now with hkeep | hzero
    · rw [hkeep]
      exact hwrap z.other
    · rw [hzero]
      decide
  have hhead' : (q.send z.other m' f').chan z.other =
      [(((q.sess z.other).encrypt m' f').2, m')] := by
    simp [Pair.send, hqchan]
  obtain ⟨hgot', -⟩ := (hx'.send law z.other m' f' hwrap').delivers law z.other hhead'
    ((q.sess z).rotationDue now') g' now'
  rw [Side.other_other, Pair.send_sess_of_ne (Side.ne_other z), ← Session.decrypt, hqz, hqo]
    at hgot'
  rw [← Session.decrypt] at hgot
  simp only [InOrder.exchange, hgot, hgot']

theorem Inv.crossing (law : BoxRoundtrip) {p : Pair} {x : Side} (h : Inv p x) (z : Side)
    (hempty : ∀ w, p.chan w = []) (hwrap : ∀ w, (p.sess w).sendNonce + 1 ≠ 0)
    (m m' : Bytes) (f g f' g' : BoxKeys) (now now' : Instant) :
    crossing (p.sess z) (p.sess z.other) m m' f g f' g' now now' = (some m, some m') := by
  have hother : (p.send z m f).sess z.other = p.sess z.other :=
    Pair.send_sess_of_ne (Side.other_ne z)
  have hsent := (h.send law z m f (hwrap z)).send law z.other m' f' (hother ▸ hwrap z.other)
  set q := (p.send z m f).send z.other m' f' with hq
  have hqz : q.sess z = ((p.sess z).encrypt m f).1 := by
    rw [hq, Pair.send_sess_of_ne (Side.ne_other z)]
    exact Function.update_self _ _ _
  have hqo : q.sess z.other = ((p.sess z.other).encrypt m' f').1 := by
    rw [hq, ← hother]
    exact Function.update_self _ _ _
  have hhead : q.chan z = [(((p.sess z).encrypt m f).2, m)] := by
    rw [hq, Pair.send_chan_of_ne (Side.ne_other z)]
    simp [Pair.send, hempty]
  have hhead' : q.chan z.other = [(((p.sess z.other).encrypt m' f').2, m')] := by
    simp [hq, Pair.send, hempty]
  obtain ⟨hgot, -⟩ := hsent.delivers law z hhead ((q.sess z.other).rotationDue now) g now
  obtain ⟨hgot', -⟩ := hsent.delivers law z.other hhead' ((q.sess z).rotationDue now') g' now'
  rw [hqo] at hgot
  rw [Side.other_other, hqz] at hgot'
  exact Prod.ext hgot hgot'

/-- **Init repair resynchronises any pair.** Whatever the keys, key sequences and
nonces of the two sessions: once `b` has handled an init of `a` and `a` the ack to
it, the next message of each end decrypts at the other, in whichever order the two
are sent and received. -/
theorem repair_resyncs (law : BoxRoundtrip) (a b : Session) (seq ackSeq : UInt64)
    (hseq : b.seq < seq) (hack : a.seq < ackSeq)
    (hnonce : a.sendNonce.toNat < 2 ^ 64 - 2 ∧ b.sendNonce.toNat < 2 ^ 64 - 2) (f g : BoxKeys) :
    ∃ b' ack, b.handleInit (a.makeInit seq) ackSeq f = (b', some ack) ∧
      ∀ (m m' : Bytes) (k₀ k₁ k₂ k₃ : BoxKeys) (now now' : Instant),
        exchange (a.handleAck ack g) b' m m' k₀ k₁ k₂ k₃ now now' = (some m, some m') ∧
        exchange b' (a.handleAck ack g) m' m k₀ k₁ k₂ k₃ now now' = (some m', some m) ∧
        crossing (a.handleAck ack g) b' m m' k₀ k₁ k₂ k₃ now now' = (some m, some m') := by
  have hbInit : b.handleInit (a.makeInit seq) ackSeq f =
      (b.applyUpdate (a.makeInit seq) f,
        some ((b.applyUpdate (a.makeInit seq) f).makeInit ackSeq)) :=
    if_neg (UInt64.not_le.mpr hseq)
  refine ⟨_, _, hbInit, ?_⟩
  intro m m' k₀ k₁ k₂ k₃ now now'
  rw [Session.handleAck_of_lt (show a.seq < ackSeq from hack)]
  set b' := b.applyUpdate (a.makeInit seq) f
  set a' := a.applyUpdate (b'.makeInit ackSeq) g
  -- A run can start here too; the send counters are whatever they were.
  let p : Pair := { Pair.start a' b' with sent := 2 ^ 64 }
  have hinv : Inv p .b := by
    refine Inv.start (InSync.of_repair a b seq ackSeq f g) (fun _ => rfl) rfl rfl ?_
    intro z
    exact (p.sess z).sendNonce.toNat_lt.le
  have hwrap : ∀ w, (p.sess w).sendNonce + 1 ≠ 0 := by
    intro w
    cases w with
    | a =>
      exact succ_ne_zero_of_lt (s := a) (by omega)
    | b =>
      exact succ_ne_zero_of_lt (s := b) (by omega)
  exact ⟨hinv.exchange law .a (fun _ => rfl) hwrap m m' k₀ k₁ k₂ k₃ now now',
    hinv.exchange law .b (fun _ => rfl) hwrap m' m k₀ k₁ k₂ k₃ now now',
    hinv.crossing law .a (fun _ => rfl) hwrap m m' k₀ k₁ k₂ k₃ now now'⟩

end Repair

section Sample

local instance : Crypto := Sample.lenient

/-- Two sessions that never heard of each other. -/
def strangers : Session × Session :=
  (Session.forInit (openingInit (sampleKeys 21) (sampleKeys 22) 5) (sampleKeys 23) (sampleKeys 24)
      (sampleKeys 25),
    Session.forInit (openingInit (sampleKeys 31) (sampleKeys 32) 8) (sampleKeys 33) (sampleKeys 34)
      (sampleKeys 35))

theorem repair_resyncs_strangers :
    ∃ b' ack, strangers.2.handleInit (strangers.1.makeInit 9) 9 (sampleKeys 40) = (b', some ack) ∧
      exchange (strangers.1.handleAck ack (sampleKeys 41)) b' [1] [2] (sampleKeys 42)
        (sampleKeys 43) (sampleKeys 44) (sampleKeys 45) 0 0 = (some [1], some [2]) := by
  obtain ⟨b', ack, hinit, hexchange⟩ := repair_resyncs Sample.boxRoundtrip strangers.1 strangers.2
    9 9 (by decide) (by decide) (by decide) (sampleKeys 40) (sampleKeys 41)
  exact ⟨b', ack, hinit, (hexchange [1] [2] (sampleKeys 42) (sampleKeys 43) (sampleKeys 44)
    (sampleKeys 45) 0 0).1⟩

end Sample

end InOrder

end Roots

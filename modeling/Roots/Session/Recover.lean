import Roots.Session.Checked
import Roots.Session.Endpoint
import Roots.Session.InOrder

/-!
# Roots.Session.Recover

How an end gets back a session it has lost. Traffic of a peer it has no session with makes it
send an init with keys that nobody keeps. The peer moves its session to those keys, and its ack
is the first message of a new session at the end that had lost it: that end draws keys or takes
the ones it had buffered, answers with an ack of its own, and flushes what it had buffered. The
peer takes that ack in, and **the two ends are in sync** (`session_recovers`), whatever the
session of the peer was, as long as its key sequence can count on.

Only the counter of the peer can stand in the way. `encrypt` moves to the next keys when it
wraps and seals with nonce zero, and no arm of `decrypt` takes a nonce of zero
(`spent_not_recovered`).
-/

namespace Roots

open InOrder Relation

section

variable [Crypto]

/-! ## The three messages -/

/-- Traffic reaches `a`, its init reaches `b`, the ack to it `a`, and the ack to that `b`: the two
ends and what `a` sends besides. -/
def recovery (a b : Endpoint) (ct : Bytes) (d₁ d₂ d₃ d₄ : Draw) :
    Option (Endpoint × Endpoint × List SessionMsg) := do
  let fromA := a.receive (.traffic ct) d₁
  let init ← fromA.2.head?
  let fromB := b.receive init d₂
  let ack ← fromB.2.head?
  let fromA' := fromA.1.receive ack d₃
  let ack' ← fromA'.2.head?
  let fromB' := fromB.1.receive ack' d₄
  return (fromA'.1, fromB'.1, fromA'.2.tail)

/-! ## The two ends afterwards -/

/-- The next message of each end decrypts at the other, in whichever order the two are sent and
received. -/
def Talks (x y : Session) : Prop :=
  ∀ (m m' : Bytes) (k₀ k₁ k₂ k₃ : BoxKeys) (now now' : Instant),
    exchange x y m m' k₀ k₁ k₂ k₃ now now' = (some m, some m') ∧
    exchange y x m' m k₀ k₁ k₂ k₃ now now' = (some m', some m) ∧
    crossing x y m m' k₀ k₁ k₂ k₃ now now' = (some m, some m')

section InSync

variable (law : BoxRoundtrip) {p : Pair} {x : Side} (h : InOrder.Inv p x)

include law h

theorem InOrder.Inv.talks (hempty : ∀ z, p.chan z = []) (hwrap : ∀ z, (p.sess z).sendNonce + 1 ≠ 0) :
    Talks (p.sess .a) (p.sess .b) := by
  intro m m' k₀ k₁ k₂ k₃ now now'
  exact ⟨h.exchange law .a hempty hwrap m m' k₀ k₁ k₂ k₃ now now',
    h.exchange law .b hempty hwrap m' m k₀ k₁ k₂ k₃ now now',
    h.crossing law .a hempty hwrap m m' k₀ k₁ k₂ k₃ now now'⟩

/-- With nothing of `z` in flight its next message decrypts. -/
theorem InOrder.Inv.next_decrypts (z : Side) (hempty : p.chan z = [])
    (hwrap : (p.sess z).sendNonce + 1 ≠ 0) (m : Bytes) (f g : BoxKeys) (now : Instant) :
    ((p.sess z.other).decrypt ((p.sess z).encrypt m f).2 g now).2 = some m := by
  have hhead : (p.send z m f).chan z = [(((p.sess z).encrypt m f).2, m)] := by
    simp [Pair.send, hempty]
  have hgot := ((h.send law z m f hwrap).delivers law z hhead
    ((p.sess z.other).rotationDue now) g now).1
  rwa [Pair.send_sess_of_ne (Side.other_ne z)] at hgot

/-- And when it has been decrypted, the next messages do. -/
theorem InOrder.Inv.talks_after (hempty : ∀ z, p.chan z = [])
    (hwrapA : (p.sess .a).sendNonce + 1 ≠ 0) (hwrapB : (p.sess .b).sendNonce + 1 ≠ 0)
    (m : Bytes) (f g : BoxKeys) (now : Instant)
    (hwrapA' : ((p.sess .a).encrypt m f).1.sendNonce + 1 ≠ 0) :
    Talks ((p.sess .a).encrypt m f).1
      ((p.sess .b).decrypt ((p.sess .a).encrypt m f).2 g now).1 := by
  obtain ⟨sent, hsent⟩ : ∃ sent, sent = (p.sess .a).encrypt m f := ⟨_, rfl⟩
  obtain ⟨q, hq⟩ : ∃ q, q = (p.send .a m f).deliver .a sent.2 [] ((p.sess .b).rotationDue now) g
    now := ⟨_, rfl⟩
  have hinv : ∃ x', InOrder.Inv q x' := by
    have hhead : (p.send .a m f).chan .a = [(sent.2, m)] := by simp [Pair.send, hempty, hsent]
    rw [hq]
    exact ((h.send law .a m f hwrapA).delivers law .a hhead _ g now).2
  rw [← hsent] at hwrapA' ⊢
  have hqa : q.sess .a = sent.1 := by
    rw [hq, Pair.deliver_sess_self, hsent]
    simp only [Pair.send, Function.update_self]
  have hqb : q.sess .b = ((p.sess .b).decrypt sent.2 g now).1 := by
    show q.sess Side.a.other = _
    rw [hq, Pair.deliver_sess_other (Prod.mk.eta).symm, Pair.send_sess_of_ne (Side.other_ne _)]
    rfl
  have hqempty : ∀ z, q.chan z = [] := by
    intro z
    rw [hq]
    cases z with
    | a => exact Pair.deliver_chan_self
    | b => exact hempty .b
  -- Taking the message in can only reset the counter of the receiver.
  have hqwrap : ∀ z, (q.sess z).sendNonce + 1 ≠ 0 := by
    intro z
    cases z with
    | a => rwa [hqa]
    | b =>
      rw [hqb, Session.decrypt]
      rcases decryptDue_sendNonce (p.sess .b) sent.2 ((p.sess .b).rotationDue now) g now with
        hkeep | hreset
      · rw [hkeep]
        exact hwrapB
      · rw [hreset]
        decide
  obtain ⟨x', hx'⟩ := hinv
  rw [← hqa, ← hqb]
  exact hx'.talks law hqempty hqwrap

end InSync

/-- All of `msgs` reach an end. -/
def Endpoint.receiveAll (e : Endpoint) (msgs : List SessionMsg) (d : Draw) : Endpoint :=
  msgs.foldl (fun e msg => (e.receive msg d).1) e

/-- The key sequences of a new session and of one that has moved twice from `n` on: no sum has
wrapped, and from `n` below `2 ^ 64 - 4` on none of the next exchange does. -/
structure Counts (n : Nat) (x y : Session) : Prop where
  new : x.localKeySeq.toNat = 1 ∧ y.remoteKeySeq.toNat = 1
  moved : x.remoteKeySeq.toNat = n + 1 ∧ y.localKeySeq.toNat = n + 2

/-- The ends `a'` and `b'` have a session with each other, and `rest` carries what was held in
`buf`. The key sequence of `b'` was `n` before. -/
structure Recovered (n : Nat) (buf : Option SessionBuf) (inbox : List Bytes) (a' b' : Endpoint)
    (rest : List SessionMsg) : Prop where
  counts : ∃ x y, a'.session = some x ∧ b'.session = some y ∧ Counts n x y
  emptied : a'.buf = none
  quiet : buf.bind SessionBuf.data = none → rest = []
  flushed : ∀ kind payload, buf.bind SessionBuf.data = some (kind, payload) →
    ∃ y ct, b'.session = some y ∧ rest = [.traffic ct] ∧
      ∀ keys now, (y.decrypt ct keys now).2 = some (kind :: payload)
  delivered : ∀ d, (b'.receiveAll rest d).inbox =
    (buf.bind SessionBuf.data).elim inbox fun held => Endpoint.deliver inbox (held.1 :: held.2)
  talks : ∀ d, ∃ x y, a'.session = some x ∧ (b'.receiveAll rest d).session = some y ∧ Talks x y
  answers : ∃ x y, a'.session = some x ∧ b'.session = some y ∧
    ∀ m f g now, (x.decrypt (y.encrypt m f).2 g now).2 = some m

section Flush

variable (law : BoxRoundtrip) {a b : Endpoint} {p : Pair} (h : InOrder.Inv p .a)
  (hempty : ∀ z, p.chan z = []) (ha : a.session = some (p.sess .a)) (hbuf : a.buf = none)
  (hb : b.session = some (p.sess .b)) (hzero : (p.sess .a).sendNonce = 0)
  (hwrap : (p.sess .b).sendNonce + 1 ≠ 0) {n : Nat} (hcounts : Counts n (p.sess .a) (p.sess .b))

include law h hempty ha hbuf hb hzero hwrap hcounts

theorem recovered_of_none {buf : Option SessionBuf} (hdata : buf.bind SessionBuf.data = none) :
    Recovered n buf b.inbox a b [] := by
  have hwraps : ∀ z, (p.sess z).sendNonce + 1 ≠ 0 := by
    intro z
    cases z with
    | a =>
      rw [hzero]
      decide
    | b => exact hwrap
  refine ⟨⟨_, _, ha, hb, hcounts⟩, hbuf, fun _ => rfl, ?_, ?_, ?_, ?_⟩
  · intro kind payload hsome
    rw [hdata] at hsome
    cases hsome
  · intro d
    rw [hdata]
    rfl
  · intro d
    exact ⟨_, _, ha, hb, h.talks law hempty hwraps⟩
  · exact ⟨_, _, ha, hb, h.next_decrypts law .b (hempty _) hwrap⟩

omit ha in
theorem recovered_of_some {buf : Option SessionBuf} {kind : UInt8} {payload : Bytes}
    (hdata : buf.bind SessionBuf.data = some (kind, payload)) (keys : BoxKeys) :
    Recovered n buf b.inbox (a.sendInner (p.sess .a) kind payload keys).1 b
      (a.sendInner (p.sess .a) kind payload keys).2 := by
  obtain ⟨sent, hsent⟩ : ∃ sent, sent = (p.sess .a).encrypt (kind :: payload) keys := ⟨_, rfl⟩
  have hwrapA : (p.sess .a).sendNonce + 1 ≠ 0 := by
    rw [hzero]
    decide
  have hnonce : sent.1.sendNonce = 1 := by
    rw [hsent, Session.encrypt, Session.advanceNonce_of_ne hwrapA]
    show (p.sess .a).sendNonce + 1 = 1
    rw [hzero]
    rfl
  have hgot : ∀ g now, ((p.sess .b).decrypt sent.2 g now).2 = some (kind :: payload) := by
    intro g now
    rw [hsent]
    exact h.next_decrypts law .a (hempty _) hwrapA (kind :: payload) keys g now
  have hreceived : ∀ d, b.receiveAll [.traffic sent.2] d =
      { b with
        session := some ((p.sess .b).decrypt sent.2 d.first d.now).1
        initSeq := nextInitSeq d.unixNow b.initSeq
        inbox := Endpoint.deliver b.inbox (kind :: payload) } := by
    intro d
    show (b.receive (.traffic sent.2) d).1 = _
    rw [receive_traffic_of_decrypts hb (hgot d.first d.now)]
  have hrest : (a.sendInner (p.sess .a) kind payload keys).2 = [.traffic sent.2] := by
    rw [hsent]
    rfl
  have hsession : (a.sendInner (p.sess .a) kind payload keys).1.session = some sent.1 := by
    rw [hsent]
    rfl
  have hsame : Counts n sent.1 (p.sess .b) := by
    rw [hsent, Session.encrypt, Session.advanceNonce_of_ne hwrapA]
    exact ⟨hcounts.new, hcounts.moved⟩
  rw [hrest]
  refine ⟨⟨_, _, hsession, hb, hsame⟩, hbuf, ?_, ?_, ?_, ?_, ?_⟩
  · intro hnone
    rw [hdata] at hnone
    cases hnone
  · intro kind' payload' hsome
    obtain ⟨rfl, rfl⟩ := Prod.mk.inj (Option.some.inj (hdata.symm.trans hsome))
    exact ⟨_, _, hb, rfl, hgot⟩
  · intro d
    rw [hreceived, hdata]
    rfl
  · intro d
    refine ⟨_, _, hsession, by rw [hreceived], ?_⟩
    rw [hsent] at hnonce ⊢
    refine h.talks_after law hempty hwrapA hwrap (kind :: payload) keys d.first d.now ?_
    rw [hnonce]
    decide
  · -- The flush is still on its way: the other direction does not wait for it.
    refine ⟨_, _, hsession, hb, ?_⟩
    intro m f g now
    have hsends := h.send law .a (kind :: payload) keys hwrapA
    have hnext := hsends.next_decrypts law .b (hempty .b) hwrap m f g now
    rw [hsent]
    exact hnext

/-- The ack, and behind it what was held. -/
theorem ackAndFlush_recovers (buf : Option SessionBuf) (ack : SessionInit) (keys : BoxKeys) :
    ∃ a' rest, a.ackAndFlush (p.sess .a) (some ack) buf keys = (a', .init true ack :: rest) ∧
      Recovered n buf b.inbox a' b rest := by
  unfold Endpoint.ackAndFlush
  cases hdata : buf.bind SessionBuf.data with
  | none => exact ⟨a, [], rfl, recovered_of_none law h hempty ha hbuf hb hzero hwrap hcounts hdata⟩
  | some held =>
    exact ⟨_, _, rfl, recovered_of_some law h hempty hbuf hb hzero hwrap hcounts hdata keys⟩

end Flush

/-- **A lost session comes back.** The end `a` has no session with `b`, whatever it has buffered
and whatever the session of `b` is. Traffic of `b` reaches `a`; then the init, the ack and the ack
to that go through in this order. What `a` held arrives once, and the next message of either end
decrypts. The init sequences rise, `b` can seal one more message with the keys it has, and its key
sequence can count four more. -/
theorem session_recovers (law : BoxRoundtrip) {a b : Endpoint} {s : Session}
    (ha : a.session = none) (hb : b.session = some s) (hnonce : s.sendNonce.toNat < 2 ^ 64 - 1)
    (hkeys : s.localKeySeq.toNat < 2 ^ 64 - 4) (ct : Bytes) (d₁ d₂ d₃ d₄ : Draw)
    (hinit : s.seq < (a.throwaway d₁).seq)
    (hack : (a.throwaway d₁).seq < nextInitSeq d₃.unixNow (a.throwaway d₁).seq) :
    ∃ a' b' rest, recovery a b ct d₁ d₂ d₃ d₄ = some (a', b', rest) ∧
      Recovered s.localKeySeq.toNat a.buf b.inbox a' b' rest := by
  obtain ⟨a₁, ha₁⟩ : ∃ a₁, a₁ = { a with initSeq := (a.throwaway d₁).seq } := ⟨_, rfl⟩
  obtain ⟨ackSeq, hackSeq⟩ : ∃ n, n = nextInitSeq d₂.unixNow b.initSeq := ⟨_, rfl⟩
  obtain ⟨ackSeq', hackSeq'⟩ : ∃ n, n = nextInitSeq d₃.unixNow (a.throwaway d₁).seq := ⟨_, rfl⟩
  obtain ⟨s₁, hs₁⟩ : ∃ s₁, s₁ = s.applyUpdate (a.throwaway d₁) d₂.first := ⟨_, rfl⟩
  obtain ⟨ack, hmake⟩ : ∃ ack, ack = s₁.makeInit ackSeq := ⟨_, rfl⟩
  obtain ⟨x, hx⟩ : ∃ x, x = (a₁.opening ack d₃).applyUpdate ack d₃.fourth := ⟨_, rfl⟩
  obtain ⟨ack', hmake'⟩ : ∃ ack', ack' = x.makeInit ackSeq' := ⟨_, rfl⟩
  obtain ⟨y, hy⟩ : ∃ y, y = s₁.applyUpdate ack' d₄.first := ⟨_, rfl⟩
  obtain ⟨p, hp⟩ : ∃ p : Pair, p = { Pair.start x y with sent := 2 ^ 64 } := ⟨_, rfl⟩
  have hack0 : ack.seq ≠ 0 := by
    rw [hmake, hackSeq]
    exact nextInitSeq_ne_zero _ _
  have hlt : s₁.seq < ack'.seq := by
    rw [hs₁, hmake', hackSeq']
    exact hack
  -- `b` answered last, so it is `a` that is one key behind.
  have hsync : InSync (p.sess .a) (p.sess .b) := by
    subst hp hy hmake' hx hmake
    exact InSync.of_repair s₁ (a₁.opening (s₁.makeInit ackSeq) d₃) ackSeq ackSeq' d₃.fourth d₄.first
  have hinv : InOrder.Inv p .a := by
    refine InOrder.Inv.start hsync (fun _ => ?_) ?_ ?_ ?_
    · rw [hp]
      rfl
    · rw [hp]
      show y.recvNonce = 0
      rw [hy]
      rfl
    · rw [hp]
      show x.nextSendNonce = 0
      rw [hx]
      rfl
    · intro z
      rw [hp]
      exact (((Pair.start x y).sess z).sendNonce.toNat_lt).le
  have hzero : (p.sess .a).sendNonce = 0 := by
    subst hp hx
    exact opening_sendNonce a₁ ack d₃
  have hwrap : (p.sess .b).sendNonce + 1 ≠ 0 := by
    subst hp hy hs₁
    exact succ_ne_zero_of_lt (s := s) hnonce
  have hcounts : Counts s.localKeySeq.toNat (p.sess .a) (p.sess .b) := by
    have hfirst : (s.localKeySeq + 1).toNat = s.localKeySeq.toNat + 1 :=
      toNat_succ (succ_ne_zero (by omega))
    have hsecond : (s.localKeySeq + 1 + 1).toNat = s.localKeySeq.toNat + 2 := by
      rw [toNat_succ (succ_ne_zero (by omega)), hfirst]
    have hnew : x.localKeySeq = 1 := by
      rw [hx]
      show (a₁.opening ack d₃).localKeySeq + 1 = 1
      rw [opening_localKeySeq]
      rfl
    subst hp hy hmake' hmake hs₁
    refine ⟨⟨congrArg UInt64.toNat hnew, congrArg UInt64.toNat hnew⟩, ?_, hsecond⟩
    show x.remoteKeySeq.toNat = _
    rw [hx]
    exact hfirst
  have hopens : ∃ a' rest, a₁.receive (.init true ack) d₃ = (a', .init true ack' :: rest) ∧
      Recovered s.localKeySeq.toNat a.buf b.inbox a'
        { b with session := some y, initSeq := ackSeq } rest := by
    rw [receive_ack_of_none (by rw [ha₁]; exact ha) hack0]
    subst hp ha₁ hmake' hackSeq' hx
    exact ackAndFlush_recovers law (b := { b with session := some y, initSeq := ackSeq }) hinv
      (fun _ => rfl) rfl rfl rfl hzero hwrap hcounts _ _ _
  obtain ⟨a', rest, hreply, hrecovered⟩ := hopens
  refine ⟨a', _, rest, ?_, hrecovered⟩
  have hanswer : b.receive (.init false (a.throwaway d₁)) d₂ =
      ({ b with session := some s₁, initSeq := ackSeq }, [.init true ack]) := by
    rw [receive_init_of_lt hb hinit, hmake, hs₁, hackSeq]
  have htaken : Endpoint.receive { b with session := some s₁, initSeq := ackSeq }
      (.init true ack') d₄ = ({ b with session := some y, initSeq := ackSeq }, []) := by
    rw [receive_ack_of_lt rfl hlt, hy]
  rw [recovery, receive_traffic_of_none ha, ← ha₁]
  simp only [List.head?_cons, Option.bind_eq_bind, Option.bind_some, hanswer, hreply, htaken,
    List.tail_cons]
  rfl

end

/-! ## An exhausted counter -/

section Sample

local instance exhausting : Crypto := Sample.lenient

/-- An end without a session, with one payload waiting. -/
def forgetful : Endpoint :=
  ((Endpoint.fresh 100).sendKind packetTypeTraffic [9] (Draw.numbered 50 100)).1

/-- An end with a session whose counter stands at `n`. -/
def keeper (n : UInt64) : Endpoint :=
  { Endpoint.fresh 100 with session := some { sampleResponder with sendNonce := n } }

theorem session_recovers_forgetful :
    ∃ a' b' rest, recovery forgetful (keeper 7) [1, 2] (Draw.numbered 60 200)
        (Draw.numbered 65 201) (Draw.numbered 70 202) (Draw.numbered 75 203) =
          some (a', b', rest) ∧
        Recovered sampleResponder.localKeySeq.toNat forgetful.buf (keeper 7).inbox a' b' rest :=
  session_recovers (s := { sampleResponder with sendNonce := 7 }) Sample.boxRoundtrip rfl rfl
    (by decide) (by decide) [1, 2] (Draw.numbered 60 200) (Draw.numbered 65 201)
    (Draw.numbered 70 202) (Draw.numbered 75 203) (by decide) (by decide)

/-- What the end that has lost its session decrypts of the next message of the other, after the
three messages. -/
def nextFrom (b : Endpoint) : Option (Option Bytes) := do
  let (a', b', _) ← recovery forgetful b [1, 2] (Draw.numbered 60 200) (Draw.numbered 65 201)
    (Draw.numbered 70 202) (Draw.numbered 75 203)
  let x ← a'.session
  let y ← b'.session
  return (x.decrypt (y.encrypt [4] (sampleKeys 80)).2 (sampleKeys 81) 0).2

example : nextFrom (keeper 7) = some (some [4]) := by decide +kernel

/-- With a counter that wraps, the next message of the peer is sealed with nonce zero under its
next keys, and is refused. -/
theorem spent_not_recovered :
    sampleResponder.localKeySeq.toNat < 2 ^ 64 - 4 ∧
      sampleResponder.remoteKeySeq.toNat < 2 ^ 64 - 4 ∧
      sampleResponder.seq < (forgetful.throwaway (Draw.numbered 60 200)).seq ∧
      (forgetful.throwaway (Draw.numbered 60 200)).seq <
        nextInitSeq 202 (forgetful.throwaway (Draw.numbered 60 200)).seq ∧
      nextFrom (keeper 18446744073709551615) = some none := by
  decide +kernel

end Sample

end Roots

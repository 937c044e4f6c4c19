import Mathlib.Logic.Function.Basic
import Mathlib.Logic.Relation
import Roots.Crypto.Sample
import Roots.Session.Endpoint
import Roots.Session.InOrder

/-!
# Roots.Session.Nonces

No two traffic messages are sealed under the same pair of box keys with the same
nonce, neither by one end nor by the two ends of a session.

A box is symmetric: what `a` seals for `b` and what `b` seals for `a` under the
same two keys share their nonce space. What keeps the two directions apart is the
order in which keys come into use. Every key an end draws becomes its `send` key at
most once. When a session pairs a new `send` key with a key of the peer, that peer
key is **closed**: it either has been the peer's `send` key already or will never
be one. Were the same two keys paired at both ends, each would have come into use
before the other.

Within one end a `send` key is paired with one peer key, and the nonce only grows
while it is in use.

Of the box itself the argument asks that it is not forged: traffic that opens was sealed
by the peer, under the pair of keys it opens with (`Net.Genuine`). That is asked of the
bytes a run delivers, not of all bytes there are.
-/

namespace Roots

namespace Nonces

open Wire (uvarint)

variable [Crypto]

/-! ## The system -/

/-- Two ends, everything either sent, and the public keys each drew. -/
structure Net where
  ends : Side → Endpoint
  sent : Side → List SessionMsg
  drawn : Side → List Key

/-- The keys `session_send_kind` draws. -/
def sendDraws (e : Endpoint) (d : Draw) : List Key :=
  match e.session with
  | some s => if s.sendNonce + 1 = 0 then [d.first.pub] else []
  | none =>
      match e.buf with
      | some _ => []
      | none => [d.first.pub, d.second.pub]

/-- The keys `handle_session_bytes` draws. -/
def receiveDraws (e : Endpoint) (msg : SessionMsg) (d : Draw) : List Key :=
  match msg, e.session with
  | .init _ init, some s => if init.seq ≤ s.seq then [] else [d.first.pub]
  | .init _ init, none =>
      [d.first.pub, d.second.pub, d.third.pub] ++
        if init.seq = 0 then [] else [d.fourth.pub]
  | .traffic ct, some s =>
      match s.openTraffic ct with
      | none => []
      | some (c, _) => if c ≠ .current ∧ s.rotationDue d.now then [d.first.pub] else []
  | .traffic _, none => [d.first.pub, d.second.pub]

namespace Net

/-- The keys `ks` have never been seen. -/
def Fresh (n : Net) (ks : List Key) : Prop := ks.Nodup ∧ ∀ k ∈ ks, ∀ z, k ∉ n.drawn z

/-- The state after `x` moved to `r.1`, sent `r.2` and drew `ks`. -/
def after (n : Net) (x : Side) (ks : List Key) (r : Endpoint × List SessionMsg) : Net where
  ends := Function.update n.ends x r.1
  sent := Function.update n.sent x (n.sent x ++ r.2)
  drawn := Function.update n.drawn x (n.drawn x ++ ks)

/-- The bytes are no forgery: if the session of `x` opens them, the peer has sealed what
they open to, with the same counter value and under the pair of keys they open under. -/
def Genuine (n : Net) (x : Side) (ct : Bytes) : Prop :=
  ∀ s ∈ (n.ends x).session, ∀ opened ∈ s.openTraffic ct, ∃ r ∈ (n.ends x.other).sealed,
    s.pairOf opened.1 = s(r.theirs, r.ours.pub) ∧ opened.2.1 = r.nonce ∧
      opened.2.2.1.toList ++ opened.2.2.2 = r.plain

/-- One step: an end sends, any init or ack the peer ever sent reaches an end, any traffic
that is not forged does, or an end drops its session or its pending open. -/
inductive Step : Net → Net → Prop
  | send (n : Net) (x : Side) (kind : UInt8) (msg : Bytes) (d : Draw)
      (fresh : n.Fresh (sendDraws (n.ends x) d)) :
      Step n (n.after x (sendDraws (n.ends x) d) ((n.ends x).sendKind kind msg d))
  | init (n : Net) (x : Side) {isAck : Bool} {init : SessionInit}
      (mem : .init isAck init ∈ n.sent x.other) (d : Draw)
      (fresh : n.Fresh (receiveDraws (n.ends x) (.init isAck init) d)) :
      Step n (n.after x (receiveDraws (n.ends x) (.init isAck init) d)
        ((n.ends x).receive (.init isAck init) d))
  | traffic (n : Net) (x : Side) {ct : Bytes} (genuine : n.Genuine x ct) (d : Draw)
      (fresh : n.Fresh (receiveDraws (n.ends x) (.traffic ct) d)) :
      Step n (n.after x (receiveDraws (n.ends x) (.traffic ct) d)
        ((n.ends x).receive (.traffic ct) d))
  | dropSession (n : Net) (x : Side) :
      Step n (n.after x [] ({ n.ends x with session := none }, []))
  | dropBuf (n : Net) (x : Side) :
      Step n (n.after x [] ({ n.ends x with buf := none }, []))

/-- Two ends that have not talked to each other. -/
def start (seqA seqB : UInt64) : Net where
  ends := fun
    | .a => Endpoint.fresh seqA
    | .b => Endpoint.fresh seqB
  sent := fun _ => []
  drawn := fun _ => []

end Net

/-! ## The ledger -/

/-- The part of a state the argument is about, with the keys that have become a
`send` key in the order in which they did. -/
structure Ledger where
  session : Side → Option Session
  buf : Side → Option SessionBuf
  sealed : Side → List Sealing
  sent : Side → List SessionMsg
  drawn : Side → List Key
  roles : List Key

def Net.ledger (n : Net) (roles : List Key) : Ledger where
  session := fun x => (n.ends x).session
  buf := fun x => (n.ends x).buf
  sealed := fun x => (n.ends x).sealed
  sent := n.sent
  drawn := n.drawn
  roles := roles

namespace Ledger

/-- The keys of `x` that may become its `send` key. -/
def Pending (l : Ledger) (x : Side) (k : Key) : Prop :=
  (∃ s, l.session x = some s ∧ s.nextKeys.pub = k) ∨ (∃ b, l.buf x = some b ∧ b.nextKeys.pub = k)

/-- `k` came into use as a `send` key before `k'`, or has not come into use. -/
def NotAfter (l : Ledger) (k k' : Key) : Prop := k ∈ l.roles → l.roles.idxOf k < l.roles.idxOf k'

/-- What every init and ack of `x` says. -/
def MsgOk (l : Ledger) (x : Side) : SessionMsg → Prop
  | .init _ init => init.seq ≠ 0 ∧ init.current ∈ l.drawn x ∧ init.next ∈ l.drawn x ∧
      ¬ l.Pending x init.current
  | .traffic _ => True

/-- What holds of the keys of a session of `x`. -/
structure KeysOk (l : Ledger) (x : Side) (s : Session) : Prop where
  recv_mem : s.recv.pub ∈ l.drawn x
  send_mem : s.send.pub ∈ l.drawn x
  current_mem : s.current ∈ l.drawn x.other
  next_mem : s.next ∈ l.drawn x.other
  inUse : s.send.pub ∈ l.roles
  closed : ¬ l.Pending x.other s.current
  order : l.NotAfter s.current s.send.pub

/-- What holds of the session of `x`. -/
structure SessionOk (l : Ledger) (x : Side) (s : Session) : Prop extends KeysOk l x s where
  counted : ∀ r ∈ l.sealed x, r.ours.pub = s.send.pub → r.nonce ≤ s.sendNonce
  alone : l.buf x = none

/-- What holds of the pending open of `x`. -/
structure BufOk (l : Ledger) (x : Side) (b : SessionBuf) : Prop where
  send_mem : b.send.pub ∈ l.drawn x
  send_ne : b.send.pub ≠ b.nextKeys.pub
  seq_ne : b.init.seq ≠ 0

/-- What holds of everything `x` sealed. -/
structure SealingOk (l : Ledger) (x : Side) (r : Sealing) : Prop where
  inUse : r.ours.pub ∈ l.roles
  ours_mem : r.ours.pub ∈ l.drawn x
  theirs_mem : r.theirs ∈ l.drawn x.other
  closed : ¬ l.Pending x.other r.theirs
  order : l.NotAfter r.theirs r.ours.pub
  inner_mem : ∃ inner ∈ l.drawn x, ∃ msg, r.plain = inner.toList ++ msg

/-- The two were not sealed with one key and one counter value. -/
def Apart (r r' : Sealing) : Prop := r.ours.pub = r'.ours.pub → r.nonce ≠ r'.nonce

structure Ok (l : Ledger) : Prop where
  disjoint : ∀ x, ∀ k ∈ l.drawn x, k ∉ l.drawn x.other
  roles_drawn : ∀ k ∈ l.roles, ∃ x, k ∈ l.drawn x
  pending_mem : ∀ x k, l.Pending x k → k ∈ l.drawn x ∧ k ∉ l.roles
  session : ∀ x s, l.session x = some s → l.SessionOk x s
  buf : ∀ x b, l.buf x = some b → l.BufOk x b
  sent : ∀ x, ∀ m ∈ l.sent x, l.MsgOk x m
  sealed : ∀ x, ∀ r ∈ l.sealed x, l.SealingOk x r
  apart : ∀ x, (l.sealed x).Pairwise Apart

variable {l l' : Ledger} {x : Side} {ks : List Key}

/-- `l'` comes from `l` by an action of `x` that draws `ks`: nothing of the other
end changes, the only new candidates for a `send` key are among `ks`, and a key
that comes into use was a candidate or is among `ks`. -/
structure Ext (l l' : Ledger) (x : Side) (ks : List Key) : Prop where
  drawn_self : l'.drawn x = l.drawn x ++ ks
  drawn_other : l'.drawn x.other = l.drawn x.other
  fresh : ∀ k ∈ ks, ∀ z, k ∉ l.drawn z
  session_other : l'.session x.other = l.session x.other
  buf_other : l'.buf x.other = l.buf x.other
  sent_other : l'.sent x.other = l.sent x.other
  sealed_other : l'.sealed x.other = l.sealed x.other
  pending : ∀ k, l'.Pending x k → l.Pending x k ∨ k ∈ ks
  roles : l'.roles = l.roles ∨ ∃ k, l'.roles = l.roles ++ [k] ∧ (l.Pending x k ∨ k ∈ ks)

theorem Ext.drawn (e : Ext l l' x ks) {z : Side} {k : Key} (h : k ∈ l.drawn z) :
    k ∈ l'.drawn z := by
  rcases Side.eq_or_eq_other x z with rfl | rfl
  · rw [e.drawn_self]
    exact List.mem_append_left _ h
  · rw [e.drawn_other]
    exact h

theorem Ext.mem_roles (e : Ext l l' x ks) {k : Key} (h : k ∈ l.roles) : k ∈ l'.roles := by
  rcases e.roles with heq | ⟨k', heq, -⟩
  · rw [heq]
    exact h
  · rw [heq]
    exact List.mem_append_left _ h

theorem Ext.pending_other (e : Ext l l' x ks) {k : Key} (h : l'.Pending x.other k) :
    l.Pending x.other k := by
  unfold Pending at h ⊢
  rw [e.session_other, e.buf_other] at h
  exact h

/-- A closed key stays closed. -/
theorem Ext.closed (e : Ext l l' x ks) {z : Side} {k : Key} (hmem : k ∈ l.drawn z)
    (hclosed : ¬ l.Pending z k) : ¬ l'.Pending z k := by
  rcases Side.eq_or_eq_other x z with rfl | rfl
  · intro hpending
    rcases e.pending k hpending with hold | hnew
    · exact hclosed hold
    · exact e.fresh k hnew z hmem
  · exact fun hpending => hclosed (e.pending_other hpending)

/-- A closed key does not come into use, so the order it is in stays. -/
theorem Ext.notAfter (e : Ext l l' x ks) (h : l.Ok) {z : Side} {k k' : Key}
    (hmem : k ∈ l.drawn z) (hclosed : ¬ l.Pending z k) (hk' : k' ∈ l.roles)
    (horder : l.NotAfter k k') : l'.NotAfter k k' := by
  rcases e.roles with heq | ⟨k₀, heq, hk₀⟩
  · unfold NotAfter
    rw [heq]
    exact horder
  · have hne : k ≠ k₀ := by
      rintro rfl
      rcases hk₀ with hpending | hnew
      · rcases Side.eq_or_eq_other x z with rfl | rfl
        · exact hclosed hpending
        · exact h.disjoint x k (h.pending_mem x k hpending).1 hmem
      · exact e.fresh k hnew z hmem
    unfold NotAfter
    rw [heq]
    intro hin
    have hin' : k ∈ l.roles := by
      rcases List.mem_append.mp hin with hin | hin
      · exact hin
      · exact absurd (List.mem_singleton.mp hin) hne
    rw [List.idxOf_append_of_mem hin', List.idxOf_append_of_mem hk']
    exact horder hin'

theorem Ext.mem_drawn_of_new (e : Ext l l' x ks) (h : l.Ok) {k : Key}
    (hk : l.Pending x k ∨ k ∈ ks) : k ∈ l'.drawn x := by
  rcases hk with hpending | hnew
  · exact e.drawn (h.pending_mem x k hpending).1
  · rw [e.drawn_self]
    exact List.mem_append_right _ hnew

theorem Ext.sealingOk (e : Ext l l' x ks) (h : l.Ok) {z : Side} {r : Sealing}
    (hr : l.SealingOk z r) : l'.SealingOk z r where
  inUse := e.mem_roles hr.inUse
  ours_mem := e.drawn hr.ours_mem
  theirs_mem := e.drawn hr.theirs_mem
  closed := e.closed hr.theirs_mem hr.closed
  order := e.notAfter h hr.theirs_mem hr.closed hr.inUse hr.order
  inner_mem := by
    obtain ⟨inner, hmem, hplain⟩ := hr.inner_mem
    exact ⟨inner, e.drawn hmem, hplain⟩

theorem Ext.msgOk (e : Ext l l' x ks) {z : Side} {m : SessionMsg} (hm : l.MsgOk z m) :
    l'.MsgOk z m := by
  cases m with
  | init isAck init =>
    obtain ⟨hseq, hcurrent, hnext, hclosed⟩ := hm
    exact ⟨hseq, e.drawn hcurrent, e.drawn hnext, e.closed hcurrent hclosed⟩
  | traffic ct => trivial

theorem Ext.keysOk (e : Ext l l' x ks) (h : l.Ok) {z : Side} {s : Session}
    (hs : l.KeysOk z s) : l'.KeysOk z s where
  recv_mem := e.drawn hs.recv_mem
  send_mem := e.drawn hs.send_mem
  current_mem := e.drawn hs.current_mem
  next_mem := e.drawn hs.next_mem
  inUse := e.mem_roles hs.inUse
  closed := e.closed hs.current_mem hs.closed
  order := e.notAfter h hs.current_mem hs.closed hs.inUse hs.order

/-- The session of the end that did not act. -/
theorem Ext.sessionOk_other (e : Ext l l' x ks) (h : l.Ok) {s : Session}
    (hs : l.SessionOk x.other s) : l'.SessionOk x.other s where
  toKeysOk := e.keysOk h hs.toKeysOk
  counted := by
    rw [e.sealed_other]
    exact hs.counted
  alone := by
    rw [e.buf_other]
    exact hs.alone

theorem KeysOk.congr {s s' : Session} (h : l.KeysOk x s) (hrecv : s'.recv = s.recv)
    (hsend : s'.send = s.send) (hcurrent : s'.current = s.current) (hnext : s'.next = s.next) :
    l.KeysOk x s' := by
  obtain ⟨h₁, h₂, h₃, h₄, h₅, h₆, h₇⟩ := h
  rw [← hrecv] at h₁
  rw [← hsend] at h₂ h₅ h₇
  rw [← hcurrent] at h₃ h₆ h₇
  rw [← hnext] at h₄
  exact ⟨h₁, h₂, h₃, h₄, h₅, h₆, h₇⟩

/-- What has to be shown of an action: everything about the end that acted. -/
theorem Ok.extend (h : l.Ok) (e : Ext l l' x ks)
    (hpending : ∀ k, l'.Pending x k → k ∉ l'.roles)
    (hsession : ∀ s, l'.session x = some s → l'.SessionOk x s)
    (hbuf : ∀ b, l'.buf x = some b → l'.BufOk x b)
    (hsent : ∃ out, l'.sent x = l.sent x ++ out ∧ ∀ m ∈ out, l'.MsgOk x m)
    (hsealed : ∃ out, l'.sealed x = l.sealed x ++ out ∧ ∀ r ∈ out, l'.SealingOk x r)
    (hapart : (l'.sealed x).Pairwise Apart) : l'.Ok := by
  refine ⟨?_, ?_, ?_, ?_, ?_, ?_, ?_, ?_⟩
  · intro z k hk
    rcases Side.eq_or_eq_other x z with rfl | rfl
    · rw [e.drawn_other]
      rw [e.drawn_self] at hk
      rcases List.mem_append.mp hk with hk | hk
      · exact h.disjoint z k hk
      · exact e.fresh k hk z.other
    · rw [e.drawn_other] at hk
      have hx := h.disjoint x.other k hk
      rw [Side.other_other] at hx ⊢
      rw [e.drawn_self, List.mem_append]
      exact fun hor => hor.elim hx (fun hks => e.fresh k hks x.other hk)
  · intro k hk
    rcases e.roles with heq | ⟨k₀, heq, hk₀⟩
    · rw [heq] at hk
      obtain ⟨z, hz⟩ := h.roles_drawn k hk
      exact ⟨z, e.drawn hz⟩
    · rw [heq] at hk
      rcases List.mem_append.mp hk with hk | hk
      · obtain ⟨z, hz⟩ := h.roles_drawn k hk
        exact ⟨z, e.drawn hz⟩
      · obtain rfl := List.mem_singleton.mp hk
        exact ⟨x, e.mem_drawn_of_new h hk₀⟩
  · intro z k hk
    rcases Side.eq_or_eq_other x z with rfl | rfl
    · exact ⟨e.mem_drawn_of_new h (e.pending k hk), hpending k hk⟩
    · obtain ⟨hmem, hroles⟩ := h.pending_mem x.other k (e.pending_other hk)
      refine ⟨e.drawn hmem, ?_⟩
      rcases e.roles with heq | ⟨k₀, heq, hk₀⟩
      · rw [heq]
        exact hroles
      · rw [heq, List.mem_append, List.mem_singleton]
        rintro (hold | rfl)
        · exact hroles hold
        · rcases hk₀ with hpend | hks
          · exact h.disjoint x k (h.pending_mem x k hpend).1 hmem
          · exact e.fresh k hks x.other hmem
  · intro z s hs
    rcases Side.eq_or_eq_other x z with rfl | rfl
    · exact hsession s hs
    · rw [e.session_other] at hs
      exact e.sessionOk_other h (h.session x.other s hs)
  · intro z b hb
    rcases Side.eq_or_eq_other x z with rfl | rfl
    · exact hbuf b hb
    · rw [e.buf_other] at hb
      have hok := h.buf x.other b hb
      exact ⟨e.drawn hok.send_mem, hok.send_ne, hok.seq_ne⟩
  · intro z m hm
    rcases Side.eq_or_eq_other x z with rfl | rfl
    · obtain ⟨out, hout, hok⟩ := hsent
      rw [hout] at hm
      rcases List.mem_append.mp hm with hm | hm
      · exact e.msgOk (h.sent z m hm)
      · exact hok m hm
    · rw [e.sent_other] at hm
      exact e.msgOk (h.sent x.other m hm)
  · intro z r hr
    rcases Side.eq_or_eq_other x z with rfl | rfl
    · obtain ⟨out, hout, hok⟩ := hsealed
      rw [hout] at hr
      rcases List.mem_append.mp hr with hr | hr
      · exact e.sealingOk h (h.sealed z r hr)
      · exact hok r hr
    · rw [e.sealed_other] at hr
      exact e.sealingOk h (h.sealed x.other r hr)
  · intro z
    rcases Side.eq_or_eq_other x z with rfl | rfl
    · exact hapart
    · rw [e.sealed_other]
      exact h.apart x.other

end Ledger

/-! ## What an end can do -/

section Outcome

open Ledger

variable {n : Net} {roles roles' : List Key} {x : Side} {ks : List Key} {e' : Endpoint}
  {out : List SessionMsg}

@[simp]
theorem ledger_session_self :
    ((n.after x ks (e', out)).ledger roles').session x = e'.session := by
  simp [Net.ledger, Net.after]

@[simp]
theorem ledger_buf_self : ((n.after x ks (e', out)).ledger roles').buf x = e'.buf := by
  simp [Net.ledger, Net.after]

@[simp]
theorem ledger_sealed_self :
    ((n.after x ks (e', out)).ledger roles').sealed x = e'.sealed := by
  simp [Net.ledger, Net.after]

@[simp]
theorem ledger_sent_self :
    ((n.after x ks (e', out)).ledger roles').sent x = n.sent x ++ out := by
  simp [Net.ledger, Net.after]

@[simp]
theorem ledger_drawn_self :
    ((n.after x ks (e', out)).ledger roles').drawn x = n.drawn x ++ ks := by
  simp [Net.ledger, Net.after]

theorem ext_after (hfresh : n.Fresh ks)
    (hpending : ∀ k, ((n.after x ks (e', out)).ledger roles').Pending x k →
      (n.ledger roles).Pending x k ∨ k ∈ ks)
    (hroles : roles' = roles ∨
      ∃ k, roles' = roles ++ [k] ∧ ((n.ledger roles).Pending x k ∨ k ∈ ks)) :
    Ext (n.ledger roles) ((n.after x ks (e', out)).ledger roles') x ks := by
  have hne := Side.other_ne x
  refine ⟨ledger_drawn_self, ?_, hfresh.2, ?_, ?_, ?_, ?_, hpending, hroles⟩ <;>
    simp [Net.ledger, Net.after]

/-- A key that was just drawn is not one that waits for its turn. -/
theorem ne_of_fresh (h : (n.ledger roles).Ok) (hfresh : n.Fresh ks) {k k' : Key} (hk : k ∈ ks)
    (hpending : (n.ledger roles).Pending x k') : k ≠ k' := by
  rintro rfl
  exact hfresh.2 k hk x (h.pending_mem x k hpending).1

/-- A message `x` sends with a session that holds the keys of `s`. -/
def OutOk (s : Session) (m : SessionMsg) : Prop :=
  (∃ isAck init, m = .init isAck init ∧ init.current = s.send.pub ∧ init.next = s.nextKeys.pub ∧
    init.seq ≠ 0) ∨ ∃ ct, m = .traffic ct

theorem OutOk.msgOk {l : Ledger} {s : Session} {m : SessionMsg} (h : OutOk s m)
    (hs : l.SessionOk x s) (hpending : ∀ k, l.Pending x k → k ∉ l.roles)
    (hnext : s.nextKeys.pub ∈ l.drawn x) : l.MsgOk x m := by
  rcases h with ⟨isAck, init, rfl, hcur, hnxt, hseq⟩ | ⟨ct, rfl⟩
  · refine ⟨hseq, hcur ▸ hs.send_mem, hnxt ▸ hnext, ?_⟩
    rw [hcur]
    exact fun hp => hpending _ hp hs.inUse
  · trivial

/-- What `x` may have sealed with the session `s`: nothing, or one message. -/
def SealedOk (old new : List Sealing) (s : Session) : Prop :=
  new = old ∨ ∃ msg, new = old ++ [s.sealing msg]

theorem SealedOk.mem {old new : List Sealing} {s : Session} (h : SealedOk old new s) {r : Sealing}
    (hr : r ∈ new) : r ∈ old ∨ ∃ msg, r = s.sealing msg := by
  rcases h with rfl | ⟨msg, rfl⟩
  · exact .inl hr
  · rcases List.mem_append.mp hr with hr | hr
    · exact .inl hr
    · exact .inr ⟨msg, List.mem_singleton.mp hr⟩

theorem apart_append {old : List Sealing} {r : Sealing} (hold : old.Pairwise Apart)
    (h : ∀ r' ∈ old, Apart r' r) : (old ++ [r]).Pairwise Apart := by
  refine List.pairwise_append.mpr ⟨hold, List.pairwise_singleton _ _, ?_⟩
  intro r' hr' r'' hr''
  obtain rfl := List.mem_singleton.mp hr''
  exact h r' hr'

/-- An action of `x` that leaves it with the session `s'` and no pending open. -/
theorem ok_after_session (h : (n.ledger roles).Ok)
    (e : Ext (n.ledger roles) ((n.after x ks (e', out)).ledger roles') x ks) {s' : Session}
    (hsession : e'.session = some s') (hbuf : e'.buf = none)
    (hnext : s'.nextKeys.pub ∈ n.drawn x ++ ks) (hunused : s'.nextKeys.pub ∉ roles')
    (hs' : ((n.after x ks (e', out)).ledger roles').SessionOk x s')
    (hsealed : SealedOk (n.ends x).sealed e'.sealed s') (hapart : e'.sealed.Pairwise Apart)
    (hout : ∀ m ∈ out, OutOk s' m) : ((n.after x ks (e', out)).ledger roles').Ok := by
  have hpending : ∀ k, ((n.after x ks (e', out)).ledger roles').Pending x k → k ∉ roles' := by
    rintro k (⟨s, hs, rfl⟩ | ⟨b, hb, -⟩)
    · rw [ledger_session_self, hsession] at hs
      obtain rfl := Option.some.inj hs
      exact hunused
    · rw [ledger_buf_self, hbuf] at hb
      cases hb
  refine h.extend e hpending ?_ ?_ ⟨out, ledger_sent_self, ?_⟩ ?_ (by simpa using hapart)
  · intro s hs
    rw [ledger_session_self, hsession] at hs
    obtain rfl := Option.some.inj hs
    exact hs'
  · intro b hb
    rw [ledger_buf_self, hbuf] at hb
    cases hb
  · intro m hm
    refine (hout m hm).msgOk hs' hpending ?_
    rw [ledger_drawn_self]
    exact hnext
  · rcases hsealed with heq | ⟨msg, heq⟩
    · exact ⟨[], ledger_sealed_self.trans (heq.trans (List.append_nil _).symm), by simp⟩
    · refine ⟨_, ledger_sealed_self.trans heq, ?_⟩
      intro r hr
      obtain rfl := List.mem_singleton.mp hr
      have hinner : s'.nextKeys.pub ∈ ((n.after x ks (e', out)).ledger roles').drawn x := by
        rw [ledger_drawn_self]
        exact hnext
      exact ⟨hs'.inUse, hs'.send_mem, hs'.current_mem, hs'.closed, hs'.order,
        _, hinner, msg, rfl⟩

/-- `x` keeps the keys of its session and may seal one message under the next
nonce. -/
theorem ok_keep (h : (n.ledger roles).Ok) {s s' : Session} (hs : (n.ends x).session = some s)
    (hsession : e'.session = some s') (hbuf : e'.buf = (n.ends x).buf)
    (hrecv : s'.recv = s.recv) (hsend : s'.send = s.send) (hkeys : s'.nextKeys = s.nextKeys)
    (hcurrent : s'.current = s.current) (hnext : s'.next = s.next)
    (hsealed : (e'.sealed = (n.ends x).sealed ∧ s'.sendNonce = s.sendNonce) ∨
      (∃ msg, e'.sealed = (n.ends x).sealed ++ [s'.sealing msg]) ∧
        s.sendNonce < s'.sendNonce)
    (hout : ∀ m ∈ out, OutOk s' m) : ((n.after x [] (e', out)).ledger roles).Ok := by
  have hok : (n.ledger roles).SessionOk x s := h.session x s hs
  have hold : (n.ledger roles).Pending x s.nextKeys.pub := .inl ⟨s, hs, rfl⟩
  obtain ⟨hmem, hunused⟩ := h.pending_mem x _ hold
  have halone : (n.ends x).buf = none := hok.alone
  have e : Ext (n.ledger roles) ((n.after x [] (e', out)).ledger roles) x [] := by
    refine ext_after ⟨List.nodup_nil, by simp⟩ ?_ (.inl rfl)
    rintro k (⟨s₀, hs₀, rfl⟩ | ⟨b, hb, -⟩)
    · rw [ledger_session_self, hsession] at hs₀
      obtain rfl := Option.some.inj hs₀
      exact .inl (hkeys ▸ hold)
    · rw [ledger_buf_self, hbuf, halone] at hb
      cases hb
  -- The recorded nonces of the key in use stay at or below the counter.
  have hcounted : ∀ r ∈ e'.sealed, r.ours.pub = s.send.pub → r.nonce ≤ s'.sendNonce := by
    intro r hr hours
    rcases hsealed with ⟨heq, hnonce⟩ | ⟨⟨msg, heq⟩, hlt⟩
    · rw [heq] at hr
      rw [hnonce]
      exact hok.counted r hr hours
    · rw [heq] at hr
      rcases List.mem_append.mp hr with hr | hr
      · exact UInt64.le_trans (hok.counted r hr hours) (UInt64.le_of_lt hlt)
      · obtain rfl := List.mem_singleton.mp hr
        exact UInt64.le_refl _
  have hapart : e'.sealed.Pairwise Apart := by
    rcases hsealed with ⟨heq, -⟩ | ⟨⟨msg, heq⟩, hlt⟩
    · rw [heq]
      exact h.apart x
    · rw [heq]
      refine apart_append (h.apart x) ?_
      intro r hr hours hnonce
      have hle := hok.counted r hr (hours.trans (congrArg BoxKeys.pub hsend))
      rw [hnonce] at hle
      exact absurd hlt (UInt64.not_lt.mpr hle)
  refine ok_after_session h e hsession (hbuf.trans halone) ?_ (hkeys ▸ hunused) ?_
    (hsealed.imp And.left And.left) hapart hout
  · rw [List.append_nil, hkeys]
    exact hmem
  · refine ⟨(e.keysOk h hok.toKeysOk).congr hrecv hsend hcurrent hnext, ?_, ?_⟩
    · rw [ledger_sealed_self, hsend]
      exact hcounted
    · rw [ledger_buf_self, hbuf]
      exact halone

/-- `x` takes a new key `k` into use as its `send` key, paired with a closed key of
the peer, and may seal one message under it. -/
theorem ok_rekey (h : (n.ledger roles).Ok) (hfresh : n.Fresh ks) {s' : Session} {k : Key}
    (hk : (n.ledger roles).Pending x k ∨ k ∈ ks) (hsession : e'.session = some s')
    (hbuf : e'.buf = none) (hsend : s'.send.pub = k) (hkeys : s'.nextKeys.pub ∈ ks)
    (hne : s'.nextKeys.pub ≠ k) (hrecv : s'.recv.pub ∈ n.drawn x ++ ks)
    (hcurrent : s'.current ∈ n.drawn x.other)
    (hclosed : ¬ (n.ledger roles).Pending x.other s'.current)
    (hnext : s'.next ∈ n.drawn x.other)
    (hsealed : SealedOk (n.ends x).sealed e'.sealed s') (hout : ∀ m ∈ out, OutOk s' m) :
    ((n.after x ks (e', out)).ledger (roles ++ [k])).Ok := by
  have hfreshRoles : ∀ k' ∈ ks, k' ∉ roles := by
    intro k' hk' hin
    obtain ⟨z, hz⟩ := h.roles_drawn k' hin
    exact hfresh.2 k' hk' z hz
  have hknew : k ∉ roles := hk.elim (fun hp => (h.pending_mem x k hp).2) (hfreshRoles k)
  have e : Ext (n.ledger roles) ((n.after x ks (e', out)).ledger (roles ++ [k])) x ks := by
    refine ext_after hfresh ?_ (.inr ⟨k, rfl, hk⟩)
    rintro k' (⟨s₀, hs₀, rfl⟩ | ⟨b, hb, -⟩)
    · rw [ledger_session_self, hsession] at hs₀
      obtain rfl := Option.some.inj hs₀
      exact .inr hkeys
    · rw [ledger_buf_self, hbuf] at hb
      cases hb
  have hkmem := e.mem_drawn_of_new h hk
  have hcurne : s'.current ≠ k := by
    intro heq
    rcases hk with hp | hks
    · exact h.disjoint x k (h.pending_mem x k hp).1 (heq ▸ hcurrent)
    · exact hfresh.2 k hks x.other (heq ▸ hcurrent)
  -- No recorded message used the key before.
  have hunrecorded : ∀ r ∈ (n.ends x).sealed, r.ours.pub ≠ k := by
    intro r hr heq
    exact hknew (heq ▸ (h.sealed x r hr).inUse)
  refine ok_after_session h e hsession hbuf (List.mem_append_right _ hkeys) ?_ ?_ hsealed ?_ hout
  · rw [List.mem_append, List.mem_singleton]
    rintro (hin | heq)
    · exact hfreshRoles _ hkeys hin
    · exact hne heq
  · refine ⟨⟨?_, hsend ▸ hkmem, e.drawn hcurrent, e.drawn hnext, ?_, e.closed hcurrent hclosed,
      ?_⟩, ?_, ?_⟩
    · rw [ledger_drawn_self]
      exact hrecv
    · show s'.send.pub ∈ roles ++ [k]
      rw [hsend]
      exact List.mem_append_right _ (List.mem_singleton_self k)
    · show s'.current ∈ roles ++ [k] → (roles ++ [k]).idxOf s'.current < (roles ++ [k]).idxOf _
      intro hin
      have hin' : s'.current ∈ roles := by
        rcases List.mem_append.mp hin with hin | hin
        · exact hin
        · exact absurd (List.mem_singleton.mp hin) hcurne
      rw [hsend, List.idxOf_append_of_mem hin', List.idxOf_append_of_notMem hknew]
      exact lt_of_lt_of_le (List.idxOf_lt_length_iff.mpr hin') (Nat.le_add_right _ _)
    · rw [ledger_sealed_self]
      intro r hr hours
      rcases hsealed.mem hr with hold | ⟨msg, rfl⟩
      · exact absurd (hours.trans hsend) (hunrecorded r hold)
      · exact UInt64.le_refl _
    · rw [ledger_buf_self]
      exact hbuf
  · rcases hsealed with heq | ⟨msg, heq⟩
    · rw [heq]
      exact h.apart x
    · rw [heq]
      refine apart_append (h.apart x) ?_
      intro r hr hours
      exact absurd (hours.trans hsend) (hunrecorded r hr)

/-- An init that `x` sends while it is left without a session. -/
theorem msgOk_after_none (hsession : e'.session = none) {isAck : Bool} {init : SessionInit}
    (hseq : init.seq ≠ 0) (hcurrent : init.current ∈ n.drawn x ++ ks)
    (hnext : init.next ∈ n.drawn x ++ ks)
    (hbuf : ∀ b, e'.buf = some b → init.current ≠ b.nextKeys.pub) :
    ((n.after x ks (e', out)).ledger roles).MsgOk x (.init isAck init) := by
  refine ⟨hseq, ?_, ?_, ?_⟩
  · rwa [ledger_drawn_self]
  · rwa [ledger_drawn_self]
  · rintro (⟨s, hs, -⟩ | ⟨b, hb, heq⟩)
    · rw [ledger_session_self, hsession] at hs
      cases hs
    · rw [ledger_buf_self] at hb
      exact hbuf b hb heq.symm

/-- `x` is left without a session. Its pending open, if any, is the one it had or
one with keys it has just drawn. -/
theorem ok_after_none (h : (n.ledger roles).Ok) (hfresh : n.Fresh ks)
    (hsession : e'.session = none) (hsealed : e'.sealed = (n.ends x).sealed)
    (hbuf : ∀ b', e'.buf = some b' →
      (∃ b, (n.ends x).buf = some b ∧ b'.send = b.send ∧ b'.nextKeys = b.nextKeys ∧
        b'.init = b.init) ∨
      (b'.send.pub ∈ ks ∧ b'.nextKeys.pub ∈ ks ∧ b'.send.pub ≠ b'.nextKeys.pub ∧
        b'.init.seq ≠ 0))
    (hout : ∀ m ∈ out, ((n.after x ks (e', out)).ledger roles).MsgOk x m) :
    ((n.after x ks (e', out)).ledger roles).Ok := by
  have hpending : ∀ k, ((n.after x ks (e', out)).ledger roles).Pending x k →
      (n.ledger roles).Pending x k ∨ k ∈ ks := by
    rintro k (⟨s, hs, -⟩ | ⟨b', hb', rfl⟩)
    · rw [ledger_session_self, hsession] at hs
      cases hs
    · rw [ledger_buf_self] at hb'
      rcases hbuf b' hb' with ⟨b, hb, -, hkeys, -⟩ | ⟨-, hkeys, -, -⟩
      · exact .inl (.inr ⟨b, hb, by rw [hkeys]⟩)
      · exact .inr hkeys
  have e := ext_after hfresh hpending (.inl rfl)
  refine h.extend e ?_ ?_ ?_ ⟨out, ledger_sent_self, hout⟩
    ⟨[], ledger_sealed_self.trans (hsealed.trans (List.append_nil _).symm), by simp⟩ ?_
  · intro k hk hin
    rcases hpending k hk with hold | hnew
    · exact (h.pending_mem x k hold).2 hin
    · obtain ⟨z, hz⟩ := h.roles_drawn k hin
      exact hfresh.2 k hnew z hz
  · intro s hs
    rw [ledger_session_self, hsession] at hs
    cases hs
  · intro b' hb'
    rw [ledger_buf_self] at hb'
    rcases hbuf b' hb' with ⟨b, hb, hsend, hkeys, hinit⟩ | ⟨hsend, hkeys, hne, hseq⟩
    · have hok := h.buf x b hb
      exact ⟨hsend ▸ e.drawn hok.send_mem, hsend ▸ hkeys ▸ hok.send_ne, hinit ▸ hok.seq_ne⟩
    · refine ⟨?_, hne, hseq⟩
      rw [ledger_drawn_self]
      exact List.mem_append_right _ hsend
  · rw [ledger_sealed_self, hsealed]
    exact h.apart x

end Outcome

/-! ## The steps -/

section Steps

open Ledger

variable {n : Net} {roles : List Key}

omit [Crypto] in
theorem mem_toList_map {init : Option SessionInit} {m : SessionMsg}
    (h : m ∈ (init.map (SessionMsg.init true)).toList) : ∃ i, init = some i ∧ m = .init true i := by
  cases init with
  | none => simp at h
  | some i => exact ⟨i, rfl, by simpa using h⟩

theorem ok_dropSession (h : (n.ledger roles).Ok) (x : Side) :
    ((n.after x [] ({ n.ends x with session := none }, [])).ledger roles).Ok := by
  refine ok_after_none h ⟨List.nodup_nil, by simp⟩ rfl rfl ?_ (by simp)
  intro b' hb'
  exact .inl ⟨b', hb', rfl, rfl, rfl⟩

theorem ok_dropBuf (h : (n.ledger roles).Ok) (x : Side) :
    ((n.after x [] ({ n.ends x with buf := none }, [])).ledger roles).Ok := by
  cases hs : (n.ends x).session with
  | none => exact ok_after_none h ⟨List.nodup_nil, by simp⟩ hs rfl (by simp) (by simp)
  | some s =>
    have halone : (n.ends x).buf = none := (h.session x s hs).alone
    exact ok_keep h hs hs halone.symm rfl rfl rfl rfl rfl (.inl ⟨rfl, rfl⟩) (by simp)

/-- Sending under a session: the next nonce, or the next keys when the counter
wraps. -/
theorem ok_sendInner (h : (n.ledger roles).Ok) {x : Side} {s : Session}
    (hs : (n.ends x).session = some s) (kind : UInt8) (msg : Bytes) {d : Draw}
    (hfresh : n.Fresh (sendDraws (n.ends x) d)) :
    ∃ roles', ((n.after x (sendDraws (n.ends x) d)
      ((n.ends x).sendInner s kind msg d.first)).ledger roles').Ok := by
  have hok : (n.ledger roles).SessionOk x s := h.session x s hs
  by_cases hwrap : s.sendNonce + 1 = 0
  · have hdraws : sendDraws (n.ends x) d = [d.first.pub] := by simp [sendDraws, hs, hwrap]
    have hadvance : s.advanceNonce d.first = s.shiftKeys s.current s.next d.first 0 0 :=
      if_pos hwrap
    have hpending : (n.ledger roles).Pending x s.nextKeys.pub := .inl ⟨s, hs, rfl⟩
    rw [hdraws] at hfresh ⊢
    refine ⟨roles ++ [s.nextKeys.pub], ?_⟩
    simp only [Endpoint.sendInner, Session.encrypt, hadvance]
    refine ok_rekey h hfresh (.inl hpending) rfl hok.alone rfl (List.mem_singleton_self _) ?_ ?_
      hok.current_mem hok.closed hok.next_mem (.inr ⟨_, rfl⟩) ?_
    · exact ne_of_fresh h hfresh (List.mem_singleton_self _) hpending
    · exact List.mem_append_left _ hok.send_mem
    · intro m hm
      obtain rfl := List.mem_singleton.mp hm
      exact .inr ⟨_, rfl⟩
  · have hdraws : sendDraws (n.ends x) d = [] := by simp [sendDraws, hs, hwrap]
    rw [hdraws]
    refine ⟨roles, ?_⟩
    simp only [Endpoint.sendInner, Session.encrypt, Session.advanceNonce_of_ne hwrap]
    refine ok_keep h hs rfl rfl rfl rfl rfl rfl rfl (.inr ⟨⟨_, rfl⟩, ?_⟩) ?_
    · show s.sendNonce < s.sendNonce + 1
      grind
    · intro m hm
      obtain rfl := List.mem_singleton.mp hm
      exact .inr ⟨_, rfl⟩

theorem ok_sendKind (h : (n.ledger roles).Ok) (x : Side) (kind : UInt8) (msg : Bytes) {d : Draw}
    (hfresh : n.Fresh (sendDraws (n.ends x) d)) :
    ∃ roles', ((n.after x (sendDraws (n.ends x) d)
      ((n.ends x).sendKind kind msg d)).ledger roles').Ok := by
  cases hs : (n.ends x).session with
  | some s =>
    rw [show (n.ends x).sendKind kind msg d = (n.ends x).sendInner s kind msg d.first by
      simp [Endpoint.sendKind, hs]]
    exact ok_sendInner h hs kind msg hfresh
  | none =>
    refine ⟨roles, ?_⟩
    cases hb : (n.ends x).buf with
    | some b =>
      -- The pending open keeps its keys and its init is sent once more.
      have hdraws : sendDraws (n.ends x) d = [] := by simp [sendDraws, hs, hb]
      have hok := h.buf x b hb
      rw [hdraws] at hfresh ⊢
      simp only [Endpoint.sendKind, hs, hb, Option.getD_some]
      refine ok_after_none h hfresh rfl rfl ?_ ?_
      · rintro b' hb'
        obtain rfl := Option.some.inj hb'
        exact .inl ⟨b, hb, rfl, rfl, rfl⟩
      · intro m hm
        obtain rfl := List.mem_singleton.mp hm
        refine msgOk_after_none rfl hok.seq_ne ?_ ?_ ?_
        · rw [b.current_eq]
          exact List.mem_append_left _ hok.send_mem
        · rw [b.next_eq]
          exact List.mem_append_left _ (h.pending_mem x _ (.inr ⟨b, hb, rfl⟩)).1
        · rintro b' hb'
          obtain rfl := Option.some.inj hb'
          rw [b.current_eq]
          exact hok.send_ne
    | none =>
      have hdraws : sendDraws (n.ends x) d = [d.first.pub, d.second.pub] := by
        simp [sendDraws, hs, hb]
      rw [hdraws] at hfresh ⊢
      have hne : d.first.pub ≠ d.second.pub := by
        intro heq
        exact (List.nodup_cons.mp hfresh.1).1 (heq ▸ List.mem_singleton_self _)
      simp only [Endpoint.sendKind, hs, hb, Option.getD_none]
      refine ok_after_none h hfresh rfl rfl ?_ ?_
      · rintro b' hb'
        obtain rfl := Option.some.inj hb'
        exact .inr ⟨List.mem_cons_self .., List.mem_cons_of_mem _ (List.mem_singleton_self _), hne,
          nextInitSeq_ne_zero _ _⟩
      · intro m hm
        obtain rfl := List.mem_singleton.mp hm
        refine msgOk_after_none rfl (nextInitSeq_ne_zero _ _)
          (List.mem_append_right _ (List.mem_cons_self ..))
          (List.mem_append_right _ (List.mem_cons_of_mem _ (List.mem_singleton_self _))) ?_
        rintro b' hb'
        obtain rfl := Option.some.inj hb'
        exact hne

/-- An init or ack of the peer reaches an end with a session. -/
theorem ok_onInit_some (h : (n.ledger roles).Ok) {x : Side} {s : Session}
    (hs : (n.ends x).session = some s) {isAck : Bool} {init : SessionInit}
    (hinit : (n.ledger roles).MsgOk x.other (.init isAck init)) {d : Draw}
    (hfresh : n.Fresh (receiveDraws (n.ends x) (.init isAck init) d)) :
    ∃ roles', ((n.after x (receiveDraws (n.ends x) (.init isAck init) d)
      ((n.ends x).onInit isAck init d)).ledger roles').Ok := by
  obtain ⟨-, hcurrent, hnext, hclosed⟩ := hinit
  have hok : (n.ledger roles).SessionOk x s := h.session x s hs
  by_cases hstale : init.seq ≤ s.seq
  · have hdraws : receiveDraws (n.ends x) (.init isAck init) d = [] := by
      simp [receiveDraws, hs, hstale]
    rw [hdraws]
    refine ⟨roles, ?_⟩
    cases isAck with
    | true =>
      simp only [Endpoint.onInit, hs, if_true, Session.handleAck, hstale]
      exact ok_keep h hs rfl rfl rfl rfl rfl rfl rfl (.inl ⟨rfl, rfl⟩) (by simp)
    | false =>
      simp only [Endpoint.onInit, hs, Bool.false_eq_true, if_false, Session.handleInit, hstale,
        if_true]
      exact ok_keep h hs rfl rfl rfl rfl rfl rfl rfl (.inl ⟨rfl, rfl⟩) (by simp)
  · have hdraws : receiveDraws (n.ends x) (.init isAck init) d = [d.first.pub] := by
      simp [receiveDraws, hs, hstale]
    have hpending : (n.ledger roles).Pending x s.nextKeys.pub := .inl ⟨s, hs, rfl⟩
    rw [hdraws] at hfresh ⊢
    have hne := ne_of_fresh h hfresh (List.mem_singleton_self _) hpending
    -- Whatever is sent back, the session after the update is the same.
    have hrekey : ∀ (e' : Endpoint) (out : List SessionMsg),
        e'.session = some (s.applyUpdate init d.first) → e'.buf = (n.ends x).buf →
        e'.sealed = (n.ends x).sealed → (∀ m ∈ out, OutOk (s.applyUpdate init d.first) m) →
        ((n.after x [d.first.pub] (e', out)).ledger (roles ++ [s.nextKeys.pub])).Ok := by
      intro e' out hsession hbuf hsealed hout
      exact ok_rekey h hfresh (.inl hpending) hsession (hbuf.trans hok.alone) rfl
        (List.mem_singleton_self _) hne (List.mem_append_left _ hok.send_mem) hcurrent hclosed
        hnext (.inl hsealed) hout
    refine ⟨roles ++ [s.nextKeys.pub], ?_⟩
    cases isAck with
    | true =>
      simp only [Endpoint.onInit, hs, if_true, Session.handleAck, hstale, if_false]
      exact hrekey _ _ rfl rfl rfl (by simp)
    | false =>
      simp only [Endpoint.onInit, hs, Bool.false_eq_true, if_false, Session.handleInit, hstale]
      refine hrekey _ _ rfl rfl rfl ?_
      intro m hm
      obtain ⟨ack, hack, rfl⟩ := mem_toList_map hm
      obtain rfl := Option.some.inj hack
      exact .inl ⟨true, _, rfl, rfl, rfl, nextInitSeq_ne_zero _ _⟩

/-- The end of `openSession`: the session `s` has just taken `k` into use; the ack is
sent, and the held payload, if any, sealed. -/
theorem ok_flush (h : (n.ledger roles).Ok) {x : Side} {ks : List Key} (hfresh : n.Fresh ks)
    {s : Session} {k : Key} (hk : (n.ledger roles).Pending x k ∨ k ∈ ks) (hsend : s.send.pub = k)
    (hkeys : s.nextKeys.pub ∈ ks) (hne : s.nextKeys.pub ≠ k)
    (hrecv : s.recv.pub ∈ n.drawn x ++ ks) (hcurrent : s.current ∈ n.drawn x.other)
    (hclosed : ¬ (n.ledger roles).Pending x.other s.current) (hnext : s.next ∈ n.drawn x.other)
    (hnonce : s.sendNonce = 0) {ack : SessionInit} (hack : OutOk s (.init true ack))
    {e : Endpoint} (hsession : e.session = some s) (hbuf : e.buf = none)
    (hsealed : e.sealed = (n.ends x).sealed) (held : Option (UInt8 × Bytes)) (spare : BoxKeys) :
    ((n.after x ks (match held with
      | some (kind, payload) =>
          ((e.sendInner s kind payload spare).1,
            [.init true ack] ++ (e.sendInner s kind payload spare).2)
      | none => (e, [.init true ack]))).ledger (roles ++ [k])).Ok := by
  cases held with
  | none =>
    refine ok_rekey h hfresh hk hsession hbuf hsend hkeys hne hrecv hcurrent hclosed hnext
      (.inl hsealed) ?_
    intro m hm
    obtain rfl := List.mem_singleton.mp hm
    exact hack
  | some data =>
    obtain ⟨kind, payload⟩ := data
    have hwrap : s.sendNonce + 1 ≠ 0 := by
      rw [hnonce]
      decide
    simp only [Endpoint.sendInner, Session.encrypt, Session.advanceNonce_of_ne hwrap]
    refine ok_rekey h hfresh hk rfl hbuf hsend hkeys hne hrecv hcurrent hclosed hnext
      (.inr ⟨_, by rw [hsealed]⟩) ?_
    intro m hm
    rcases List.mem_append.mp hm with hm | hm
    · obtain rfl := List.mem_singleton.mp hm
      rcases hack with ⟨isAck, init, heq, hcur, hnxt, hseq⟩ | ⟨msg, heq⟩
      · exact .inl ⟨isAck, init, heq, hcur, hnxt, hseq⟩
      · cases heq
    · obtain rfl := List.mem_singleton.mp hm
      exact .inr ⟨_, rfl⟩

/-- An init or ack of the peer reaches an end without a session. -/
theorem ok_openSession (h : (n.ledger roles).Ok) {x : Side} (hs : (n.ends x).session = none)
    {isAck : Bool} {init : SessionInit}
    (hinit : (n.ledger roles).MsgOk x.other (.init isAck init)) {d : Draw}
    (hfresh : n.Fresh (receiveDraws (n.ends x) (.init isAck init) d)) :
    ∃ roles', ((n.after x (receiveDraws (n.ends x) (.init isAck init) d)
      ((n.ends x).openSession init d)).ledger roles').Ok := by
  obtain ⟨hseq, hcurrent, hnext, hclosed⟩ := hinit
  have hdraws : receiveDraws (n.ends x) (.init isAck init) d =
      [d.first.pub, d.second.pub, d.third.pub, d.fourth.pub] := by
    simp [receiveDraws, hs, hseq]
  rw [hdraws] at hfresh ⊢
  have hmem₂ : d.second.pub ∈ [d.first.pub, d.second.pub, d.third.pub, d.fourth.pub] := by simp
  have hmem₃ : d.third.pub ∈ [d.first.pub, d.second.pub, d.third.pub, d.fourth.pub] := by simp
  have hmem₄ : d.fourth.pub ∈ [d.first.pub, d.second.pub, d.third.pub, d.fourth.pub] := by simp
  have hack : ∀ s : Session, OutOk s (.init true
      (s.makeInit (nextInitSeq d.unixNow (n.ends x).initSeq))) :=
    fun s => .inl ⟨true, _, rfl, rfl, rfl, nextInitSeq_ne_zero _ _⟩
  cases hb : (n.ends x).buf with
  | none =>
    -- Nothing was pending: all keys of the session are new.
    have hne : d.fourth.pub ≠ d.third.pub := by
      intro heq
      have hnodup := hfresh.1
      simp [heq] at hnodup
    refine ⟨roles ++ [d.third.pub], ?_⟩
    have hopen := Session.handleInit_of_new (s := Session.forInit init d.first d.second d.third)
      hseq rfl
    simp only [Endpoint.openSession, hb, hopen, Option.bind_none]
    exact ok_flush (e := { n.ends x with session := _, buf := none, initSeq := _ }) h hfresh
      (.inr hmem₃) rfl hmem₄ hne (List.mem_append_right _ hmem₂) hcurrent hclosed hnext rfl
      (hack _) rfl rfl rfl none d.fifth
  | some b =>
    -- The buffered keys become `recv` and `send`; the buffered init announced them
    -- as `current` and `next`.
    have hok := h.buf x b hb
    have hpending : (n.ledger roles).Pending x b.nextKeys.pub := .inr ⟨b, hb, rfl⟩
    have hne := ne_of_fresh h hfresh hmem₄ hpending
    refine ⟨roles ++ [b.nextKeys.pub], ?_⟩
    have hopen := Session.handleInit_of_new hseq
      (s := (Session.forInit init d.first d.second d.third).adoptBuffered b.send b.nextKeys) rfl
    simp only [Endpoint.openSession, hb, hopen, Option.bind_some]
    exact ok_flush (e := { n.ends x with session := _, buf := none, initSeq := _ }) h hfresh
      (.inl hpending) rfl hmem₄ hne (List.mem_append_left _ hok.send_mem) hcurrent hclosed hnext
      rfl (hack _) rfl rfl rfl b.data d.fifth

/-- A key with which the peer sealed is closed. -/
theorem closed_of_role (h : (n.ledger roles).Ok) {x : Side} {k : Key} (hk : k ∈ roles) :
    ¬ (n.ledger roles).Pending x k :=
  fun hp => (h.pending_mem x k hp).2 hk

/-- What traffic that opens in a `next` arm tells: the key the session is about to adopt
as `current` is one the peer has sealed with, and the inner key is one the peer drew. -/
theorem openTraffic_next (h : (n.ledger roles).Ok) {x : Side} {s : Session}
    (hs : (n.ends x).session = some s) {ct : Bytes} (hct : n.Genuine x ct) {c : Session.Case}
    {nonce : UInt64} {inner : Key} {payload : Bytes}
    (hopen : s.openTraffic ct = some (c, nonce, inner, payload)) (hc : c ≠ .current) :
    s.next ∈ roles ∧ inner ∈ n.drawn x.other := by
  obtain ⟨r, hr, hpair, -, hplain⟩ := hct s hs _ hopen
  have hok : (n.ledger roles).SealingOk x.other r := h.sealed x.other r hr
  have hnext : s.next ∈ n.drawn x.other := (h.session x s hs).next_mem
  obtain ⟨inner', hinner, msg, hmsg⟩ := hok.inner_mem
  have hsame : inner = inner' :=
    List.Vector.eq _ _ (List.append_inj (hplain.trans hmsg) (by simp)).1
  refine ⟨?_, hsame ▸ hinner⟩
  have hpair' : ∃ k, s(s.next, k) = s(r.theirs, r.ours.pub) := by
    cases c with
    | current => exact absurd rfl hc
    | nextSend => exact ⟨_, hpair⟩
    | nextRecv => exact ⟨_, hpair⟩
  obtain ⟨k, hk⟩ := hpair'
  -- The peer's key in the pair cannot be the one the peer took for ours.
  rcases Sym2.eq_iff.mp hk with ⟨htheirs, -⟩ | ⟨hours, -⟩
  · have hmem := hok.theirs_mem
    rw [Side.other_other, ← htheirs] at hmem
    exact absurd hnext (h.disjoint x _ hmem)
  · exact hours ▸ hok.inUse

/-- Traffic that an end with a session cannot open: the repair init announces the
keys in use. -/
theorem ok_onTraffic_refused (h : (n.ledger roles).Ok) {x : Side} {s : Session}
    (hs : (n.ends x).session = some s) {ct : Bytes} (ho : s.openTraffic ct = none) (d : Draw) :
    ((n.after x (receiveDraws (n.ends x) (.traffic ct) d)
      ((n.ends x).onTraffic ct d)).ledger roles).Ok := by
  have hdraws : receiveDraws (n.ends x) (.traffic ct) d = [] := by simp [receiveDraws, hs, ho]
  rw [hdraws]
  simp only [Endpoint.onTraffic, hs, Session.decrypt, Session.decryptDue, ho]
  refine ok_keep h hs rfl rfl rfl rfl rfl rfl rfl (.inl ⟨rfl, rfl⟩) ?_
  intro m hm
  obtain rfl := List.mem_singleton.mp hm
  exact .inl ⟨false, _, rfl, rfl, rfl, nextInitSeq_ne_zero _ _⟩

/-- Traffic of the peer that an end with a session opens. -/
theorem ok_onTraffic_opened (h : (n.ledger roles).Ok) {x : Side} {s : Session}
    (hs : (n.ends x).session = some s) {ct : Bytes} (hct : n.Genuine x ct) {c : Session.Case}
    {nonce : UInt64} {inner : Key} {payload : Bytes}
    (ho : s.openTraffic ct = some (c, nonce, inner, payload))
    {d : Draw} (hfresh : n.Fresh (receiveDraws (n.ends x) (.traffic ct) d)) :
    ∃ roles', ((n.after x (receiveDraws (n.ends x) (.traffic ct) d)
      ((n.ends x).onTraffic ct d)).ledger roles').Ok := by
  have hok : (n.ledger roles).SessionOk x s := h.session x s hs
  by_cases hrotate : c ≠ .current ∧ s.rotationDue d.now = true
  · have hdraws : receiveDraws (n.ends x) (.traffic ct) d = [d.first.pub] := by
      simp [receiveDraws, hs, ho, hrotate]
    have hpending : (n.ledger roles).Pending x s.nextKeys.pub := .inl ⟨s, hs, rfl⟩
    obtain ⟨hrole, hinner⟩ := openTraffic_next h hs hct ho hrotate.1
    rw [hdraws] at hfresh ⊢
    refine ⟨roles ++ [s.nextKeys.pub], ?_⟩
    simp only [Endpoint.onTraffic, hs, Session.decrypt, Session.decryptDue, ho, hrotate.2]
    have hne := ne_of_fresh h hfresh (List.mem_singleton_self _) hpending
    cases c with
    | current => exact absurd rfl hrotate.1
    | nextSend =>
      exact ok_rekey h hfresh (.inl hpending) rfl hok.alone rfl (List.mem_singleton_self _) hne
        (List.mem_append_left _ hok.send_mem) hok.next_mem (closed_of_role h hrole) hinner
        (.inl rfl) (by simp)
    | nextRecv =>
      exact ok_rekey h hfresh (.inl hpending) rfl hok.alone rfl (List.mem_singleton_self _) hne
        (List.mem_append_left _ hok.send_mem) hok.next_mem (closed_of_role h hrole) hinner
        (.inl rfl) (by simp)
  · have hdraws : receiveDraws (n.ends x) (.traffic ct) d = [] := by
      simp only [receiveDraws, hs, ho, if_neg hrotate]
    rw [hdraws]
    refine ⟨roles, ?_⟩
    simp only [Endpoint.onTraffic, hs, Session.decrypt, Session.decryptDue, ho]
    cases c with
    | current => exact ok_keep h hs rfl rfl rfl rfl rfl rfl rfl (.inl ⟨rfl, rfl⟩) (by simp)
    | nextSend =>
      obtain hdue : s.rotationDue d.now = false := by simpa using hrotate
      rw [hdue]
      exact ok_keep h hs rfl rfl rfl rfl rfl rfl rfl (.inl ⟨rfl, rfl⟩) (by simp)
    | nextRecv =>
      obtain hdue : s.rotationDue d.now = false := by simpa using hrotate
      rw [hdue]
      exact ok_keep h hs rfl rfl rfl rfl rfl rfl rfl (.inl ⟨rfl, rfl⟩) (by simp)

/-- Traffic reaches an end without a session: it answers with keys it forgets. -/
theorem ok_onTraffic_none (h : (n.ledger roles).Ok) {x : Side} (hs : (n.ends x).session = none)
    {ct : Bytes} {d : Draw} (hfresh : n.Fresh (receiveDraws (n.ends x) (.traffic ct) d)) :
    ((n.after x (receiveDraws (n.ends x) (.traffic ct) d)
      ((n.ends x).onTraffic ct d)).ledger roles).Ok := by
  have hdraws : receiveDraws (n.ends x) (.traffic ct) d = [d.first.pub, d.second.pub] := by
    simp [receiveDraws, hs]
  rw [hdraws] at hfresh ⊢
  simp only [Endpoint.onTraffic, hs]
  refine ok_after_none h hfresh rfl rfl (fun b hb => .inl ⟨b, hb, rfl, rfl, rfl⟩) ?_
  intro m hm
  obtain rfl := List.mem_singleton.mp hm
  refine msgOk_after_none rfl (nextInitSeq_ne_zero _ _)
    (List.mem_append_right _ (List.mem_cons_self ..))
    (List.mem_append_right _ (List.mem_cons_of_mem _ (List.mem_singleton_self _))) ?_
  intro b hb
  exact ne_of_fresh h hfresh (List.mem_cons_self ..) (.inr ⟨b, hb, rfl⟩)

theorem ok_step {n n' : Net} (h : ∃ roles, (n.ledger roles).Ok)
    (hstep : Net.Step n n') : ∃ roles, (n'.ledger roles).Ok := by
  obtain ⟨roles, h⟩ := h
  cases hstep with
  | send x kind msg d fresh => exact ok_sendKind h x kind msg fresh
  | @init x isAck init mem d fresh =>
    have hmsg := h.sent x.other _ mem
    cases hs : (n.ends x).session with
    | some s => exact ok_onInit_some h hs hmsg fresh
    | none =>
      rw [show (n.ends x).receive (.init isAck init) d = (n.ends x).openSession init d by
        simp [Endpoint.receive, Endpoint.onInit, hs]]
      exact ok_openSession h hs hmsg fresh
  | @traffic x ct genuine d fresh =>
    cases hs : (n.ends x).session with
    | some s =>
      cases ho : s.openTraffic ct with
      | none => exact ⟨roles, ok_onTraffic_refused h hs ho d⟩
      | some r => exact ok_onTraffic_opened h hs genuine ho fresh
    | none => exact ⟨roles, ok_onTraffic_none h hs fresh⟩
  | dropSession x => exact ⟨roles, ok_dropSession h x⟩
  | dropBuf x => exact ⟨roles, ok_dropBuf h x⟩

theorem ok_start (seqA seqB : UInt64) : ((Net.start seqA seqB).ledger []).Ok := by
  have hends : ∀ x, ∃ seq, (Net.start seqA seqB).ends x = Endpoint.fresh seq := by
    intro x
    cases x with
    | a => exact ⟨seqA, rfl⟩
    | b => exact ⟨seqB, rfl⟩
  refine ⟨?_, ?_, ?_, ?_, ?_, ?_, ?_, ?_⟩
  · intro x k hk
    exact absurd hk List.not_mem_nil
  · intro k hk
    exact absurd hk List.not_mem_nil
  · rintro x k (⟨s, hs, -⟩ | ⟨b, hb, -⟩) <;> obtain ⟨seq, hseq⟩ := hends x
    · simp [Net.ledger, hseq, Endpoint.fresh] at hs
    · simp [Net.ledger, hseq, Endpoint.fresh] at hb
  · intro x s hs
    obtain ⟨seq, hseq⟩ := hends x
    simp [Net.ledger, hseq, Endpoint.fresh] at hs
  · intro x b hb
    obtain ⟨seq, hseq⟩ := hends x
    simp [Net.ledger, hseq, Endpoint.fresh] at hb
  · intro x m hm
    exact absurd hm List.not_mem_nil
  · intro x r hr
    obtain ⟨seq, hseq⟩ := hends x
    simp [Net.ledger, hseq, Endpoint.fresh] at hr
  · intro x
    obtain ⟨seq, hseq⟩ := hends x
    simp [Net.ledger, hseq, Endpoint.fresh]

theorem ok_of_steps {n n' : Net} (h : ∃ roles, (n.ledger roles).Ok)
    (hsteps : Relation.ReflTransGen Net.Step n n') : ∃ roles, (n'.ledger roles).Ok := by
  induction hsteps with
  | refl => exact h
  | tail _ hstep ih => exact ok_step ih hstep

end Steps

/-! ## What the messages were sealed with -/

/-- The bytes are a header with the counter value and the box of the plaintext, sealed
with the keys and the counter value. -/
def Seals (r : Sealing) (ct : Bytes) : Prop :=
  ∃ localSeq remoteSeq, ct = sessionTypeTraffic :: (uvarint localSeq ++ (uvarint remoteSeq ++
    (uvarint r.nonce ++ boxSeal (salsaBox r.theirs r.ours.priv) r.nonce r.plain)))

theorem seals_sealTraffic (s : Session) (msg : Bytes) : Seals (s.sealing msg) (s.sealTraffic msg) := by
  refine ⟨s.localKeySeq, s.remoteKeySeq, ?_⟩
  rw [Session.sealTraffic, s.sendShared_eq]
  rfl

/-- The record of an end is about the traffic it sent, message by message. -/
def Recorded (recorded : List Sealing) (sent : List SessionMsg) : Prop :=
  List.Forall₂ Seals recorded (sent.filterMap SessionMsg.traffic?)

section Record

variable {e : Endpoint} {recorded : List Sealing} {sent out : List SessionMsg}

theorem Recorded.append {more : List Sealing} (h : Recorded recorded sent)
    (hmore : Recorded more out) : Recorded (recorded ++ more) (sent ++ out) := by
  rw [Recorded, List.filterMap_append]
  exact List.rel_append h hmore

/-- What an end does adds to its record what it seals. -/
def Records (e : Endpoint) (r : Endpoint × List SessionMsg) : Prop :=
  ∃ more, r.1.sealed = e.sealed ++ more ∧ Recorded more r.2

theorem Records.of_silent {r : Endpoint × List SessionMsg} (hsealed : r.1.sealed = e.sealed)
    (hsent : r.2.filterMap SessionMsg.traffic? = []) : Records e r := by
  refine ⟨[], by simp [hsealed], ?_⟩
  rw [Recorded, hsent]
  exact .nil

theorem records_sendInner (e : Endpoint) (s : Session) (kind : UInt8) (msg : Bytes)
    (keys : BoxKeys) : Records e (e.sendInner s kind msg keys) :=
  ⟨_, rfl, .cons (seals_sealTraffic _ _) .nil⟩

theorem records_sendKind (e : Endpoint) (kind : UInt8) (msg : Bytes) (d : Draw) :
    Records e (e.sendKind kind msg d) := by
  cases hs : e.session with
  | some s =>
    simp only [Endpoint.sendKind, hs]
    exact records_sendInner e s kind msg d.first
  | none =>
    simp only [Endpoint.sendKind, hs]
    exact .of_silent rfl rfl

omit [Crypto] in
theorem traffic_acks (ack : Option SessionInit) :
    (ack.map (SessionMsg.init true)).toList.filterMap SessionMsg.traffic? = [] := by
  cases ack <;> rfl

theorem records_ackAndFlush (s : Session) (ack : Option SessionInit) (buf : Option SessionBuf)
    (keys : BoxKeys) : Records e (e.ackAndFlush s ack buf keys) := by
  unfold Endpoint.ackAndFlush
  split
  · next kind payload _ =>
    obtain ⟨more, hsealed, hmore⟩ := records_sendInner e s kind payload keys
    refine ⟨more, hsealed, ?_⟩
    rw [Recorded, List.filterMap_append, traffic_acks]
    exact hmore
  · exact .of_silent rfl (traffic_acks ack)

theorem records_onInit (e : Endpoint) (isAck : Bool) (init : SessionInit) (d : Draw) :
    Records e (e.onInit isAck init d) := by
  cases hs : e.session with
  | none =>
    simp only [Endpoint.onInit, hs, openSession_eq]
    exact records_ackAndFlush (e := { e with session := _, buf := none, initSeq := _ }) ..
  | some s =>
    cases isAck with
    | true =>
      simp only [Endpoint.onInit, hs, if_true]
      exact .of_silent rfl rfl
    | false =>
      simp only [Endpoint.onInit, hs, Bool.false_eq_true, if_false]
      exact .of_silent rfl (traffic_acks _)

theorem records_onTraffic (e : Endpoint) (ct : Bytes) (d : Draw) :
    Records e (e.onTraffic ct d) := by
  unfold Endpoint.onTraffic
  split
  · split
    · exact .of_silent rfl rfl
    · exact .of_silent rfl rfl
  · exact .of_silent rfl rfl

end Record

/-- The record of every end is about what it sent. -/
def Net.Recorded (n : Net) : Prop := ∀ x, Nonces.Recorded (n.ends x).sealed (n.sent x)

theorem Net.Recorded.after {n : Net} (h : n.Recorded) {x : Side}
    {r : Endpoint × List SessionMsg} (hr : Records (n.ends x) r) (ks : List Key) :
    (n.after x ks r).Recorded := by
  intro z
  rcases Side.eq_or_eq_other x z with rfl | rfl
  · obtain ⟨more, hsealed, hmore⟩ := hr
    simp only [Net.after, Function.update_self, hsealed]
    exact (h z).append hmore
  · simp only [Net.after, Function.update_of_ne (Side.other_ne x)]
    exact h x.other

theorem Net.Recorded.step {n n' : Net} (h : n.Recorded) (hstep : Net.Step n n') :
    n'.Recorded := by
  cases hstep with
  | send x kind msg d => exact h.after (records_sendKind _ kind msg d) _
  | init x mem d => exact h.after (records_onInit _ _ _ d) _
  | traffic x genuine d => exact h.after (records_onTraffic _ _ d) _
  | dropSession x => exact h.after (.of_silent rfl rfl) _
  | dropBuf x => exact h.after (.of_silent rfl rfl) _

theorem Net.Recorded.of_steps {n n' : Net} (h : n.Recorded)
    (hsteps : Relation.ReflTransGen Net.Step n n') : n'.Recorded := by
  induction hsteps with
  | refl => exact h
  | tail _ hstep ih => exact ih.step hstep

theorem recorded_start (seqA seqB : UInt64) : (Net.start seqA seqB).Recorded := by
  intro x
  cases x <;> exact .nil

/-! ## No nonce is used twice -/

/-- What a message was sealed with, as the box sees it: the unordered pair of keys
and the nonce. -/
def boxUse (r : Sealing) : Sym2 Key × Nonce := (s(r.ours.pub, r.theirs), nonceFor r.nonce)

/-- Everything either end sealed with. -/
def Net.boxUses (n : Net) : List (Sym2 Key × Nonce) :=
  ((n.ends .a).sealed ++ (n.ends .b).sealed).map boxUse

namespace Ledger

variable {l : Ledger}

/-- Two messages of one end: the pair determines which key is whose. -/
theorem Ok.ours_eq (h : l.Ok) {x : Side} {r r' : Sealing} (hr : r ∈ l.sealed x)
    (hr' : r' ∈ l.sealed x) (heq : boxUse r = boxUse r') : r.ours.pub = r'.ours.pub := by
  rcases Sym2.eq_iff.mp (Prod.mk.inj heq).1 with ⟨hours, -⟩ | ⟨hours, -⟩
  · exact hours
  · have hmem : r.ours.pub ∈ l.drawn x.other := hours ▸ (h.sealed x r' hr').theirs_mem
    exact absurd hmem (h.disjoint x _ (h.sealed x r hr).ours_mem)

theorem Ok.boxUse_nodup (h : l.Ok) (x : Side) : ((l.sealed x).map boxUse).Nodup := by
  refine List.pairwise_map.mpr ((h.apart x).imp_of_mem ?_)
  intro r r' hr hr' hapart heq
  exact hapart (h.ours_eq hr hr' heq) (nonceFor_injective (Prod.mk.inj heq).2)

/-- Messages of the two ends: were the pair the same, each key would have come into
use before the other. -/
theorem Ok.boxUse_ne (h : l.Ok) {x : Side} {r r' : Sealing} (hr : r ∈ l.sealed x)
    (hr' : r' ∈ l.sealed x.other) : boxUse r ≠ boxUse r' := by
  intro heq
  have hok := h.sealed x r hr
  have hok' := h.sealed x.other r' hr'
  rcases Sym2.eq_iff.mp (Prod.mk.inj heq).1 with ⟨hours, -⟩ | ⟨hours, htheirs⟩
  · exact h.disjoint x _ hok.ours_mem (hours ▸ hok'.ours_mem)
  · have hlt : l.roles.idxOf r'.ours.pub < l.roles.idxOf r.ours.pub := by
      rw [← htheirs]
      exact hok.order (htheirs ▸ hok'.inUse)
    have hlt' : l.roles.idxOf r.ours.pub < l.roles.idxOf r'.ours.pub := by
      rw [hours]
      exact hok'.order (hours ▸ hok.inUse)
    exact absurd hlt' (Nat.not_lt.mpr (Nat.le_of_lt hlt))

end Ledger

theorem boxUses_nodup_of_ok {n : Net} {roles : List Key} (h : (n.ledger roles).Ok) :
    n.boxUses.Nodup := by
  unfold Net.boxUses
  rw [List.map_append, List.nodup_append]
  refine ⟨h.boxUse_nodup .a, h.boxUse_nodup .b, ?_⟩
  intro u hu u' hu'
  obtain ⟨r, hr, rfl⟩ := List.mem_map.mp hu
  obtain ⟨r', hr', rfl⟩ := List.mem_map.mp hu'
  exact h.boxUse_ne (x := .a) hr hr'

/-- **Nonces are not reused.** Over every run of two ends, the record of each is what it
sealed its traffic with, message by message, and no two entries of the two records share
both the unordered pair of box keys and the nonce. -/
theorem nonces_never_reused {seqA seqB : UInt64} {n : Net}
    (hrun : Relation.ReflTransGen Net.Step (Net.start seqA seqB) n) :
    (∀ x, List.Forall₂ Seals (n.ends x).sealed ((n.sent x).filterMap SessionMsg.traffic?)) ∧
      n.boxUses.Nodup := by
  obtain ⟨roles, h⟩ := ok_of_steps ⟨[], ok_start seqA seqB⟩ hrun
  exact ⟨(recorded_start seqA seqB).of_steps hrun, boxUses_nodup_of_ok h⟩

end Nonces

namespace Nonces

section Sample

local instance sealing : Crypto := Sample.lenient

def sampleDraw (base : UInt8) : Draw := Draw.numbered base 0

/-- `x` sends a payload. -/
def sampleSend (n : Net) (x : Side) (base : UInt8) : Net :=
  n.after x (sendDraws (n.ends x) (sampleDraw base))
    ((n.ends x).sendKind packetTypeTraffic [7] (sampleDraw base))

/-- The latest message of the peer. -/
def latest (n : Net) (x : Side) : SessionMsg := (n.sent x.other).getLastD (.traffic [])

/-- It reaches `x`. -/
def sampleReceive (n : Net) (x : Side) (base : UInt8) : Net :=
  n.after x (receiveDraws (n.ends x) (latest n x) (sampleDraw base))
    ((n.ends x).receive (latest n x) (sampleDraw base))

def sampleInit : Net := sampleSend (Net.start 0 0) .a 10

def sampleAck : Net := sampleReceive sampleInit .b 20

/-- The ack opens the session of `a`, which flushes its payload. -/
def sampleFlush : Net := sampleReceive sampleAck .a 30

def sampleDelivered : Net := sampleReceive sampleFlush .b 40

def sampleReply : Net := sampleSend sampleDelivered .b 50

-- Spelled with `List.all`: a bounded quantifier over keys would be decided by
-- enumerating all of them.
instance (n : Net) (ks : List Key) : Decidable (n.Fresh ks) :=
  decidable_of_iff
    (ks.Nodup ∧ (ks.all fun k => decide (k ∉ n.drawn .a ∧ k ∉ n.drawn .b)) = true) <| by
    simp only [Net.Fresh, List.all_eq_true, decide_eq_true_eq]
    refine and_congr_right fun _ => forall₂_congr fun k _ => ⟨?_, fun h => ⟨h .a, h .b⟩⟩
    intro h z
    cases z with
    | a => exact h.1
    | b => exact h.2

instance (n : Net) (x : Side) (ct : Bytes) : Decidable (n.Genuine x ct) :=
  inferInstanceAs (Decidable (∀ s ∈ (n.ends x).session, ∀ opened ∈ s.openTraffic ct, _))

/-- What a step asks of a message that is delivered. -/
def Deliverable (n : Net) (x : Side) : SessionMsg → Prop
  | .init isAck init => .init isAck init ∈ n.sent x.other
  | .traffic ct => n.Genuine x ct

instance (n : Net) (x : Side) (msg : SessionMsg) : Decidable (Deliverable n x msg) :=
  match msg with
  | .init isAck init => inferInstanceAs (Decidable (.init isAck init ∈ n.sent x.other))
  | .traffic ct => inferInstanceAs (Decidable (n.Genuine x ct))

theorem sampleReceive_step {n : Net} {x : Side} {base : UInt8}
    (h : Deliverable n x (latest n x) ∧
      n.Fresh (receiveDraws (n.ends x) (latest n x) (sampleDraw base))) :
    Net.Step n (sampleReceive n x base) := by
  unfold sampleReceive
  obtain ⟨hmsg, hfresh⟩ := h
  cases hlatest : latest n x with
  | init isAck init =>
    rw [hlatest] at hmsg hfresh
    exact .init n x hmsg (sampleDraw base) hfresh
  | traffic ct =>
    rw [hlatest] at hmsg hfresh
    exact .traffic n x hmsg (sampleDraw base) hfresh

theorem sample_run : Relation.ReflTransGen Net.Step (Net.start 0 0) sampleReply := by
  have hinit : Net.Step (Net.start 0 0) sampleInit :=
    .send (Net.start 0 0) .a packetTypeTraffic [7] (sampleDraw 10) (by decide +kernel)
  have hack : Net.Step sampleInit sampleAck := sampleReceive_step (by decide +kernel)
  have hflush : Net.Step sampleAck sampleFlush := sampleReceive_step (by decide +kernel)
  have hdelivered : Net.Step sampleFlush sampleDelivered :=
    sampleReceive_step (by decide +kernel)
  have hreply : Net.Step sampleDelivered sampleReply :=
    .send sampleDelivered .b packetTypeTraffic [7] (sampleDraw 50) (by decide +kernel)
  exact ((((Relation.ReflTransGen.single hinit).tail hack).tail hflush).tail hdelivered).tail hreply

/-- Both ends seal in the sample run, and the message of `a` is opened by `b`. -/
theorem nonces_never_reused_sample :
    (sampleReply.ends .b).inbox = [[7]] ∧ (sampleReply.ends .a).sealed.length = 1 ∧
      (sampleReply.ends .b).sealed.length = 1 ∧ sampleReply.boxUses.Nodup :=
  ⟨by decide +kernel, by decide +kernel, by decide +kernel, (nonces_never_reused sample_run).2⟩

end Sample

end Nonces

end Roots

import Roots.Router.Ends
import Roots.Router.Rules.Driver
import Roots.Crypto.Sample

/-!
# Roots.Router.Contact

The first message of a peer. `handle_session_bytes` creates a session from an init that opens
and verifies, and then lets the session handle the same init as any other. For the session to
take it in, `for_init` stores the sequence number below the init's, **with a subtraction that
wraps**. An init with number zero is below nothing: the session that was made for it refuses it,
sends no ack, and refuses every init after it. So first contact is made
**if and only if the number is not zero** (`first_contact_iff`).

What follows the opening, the ack and the flush of a payload, only seals messages. That leaves
what the session knows of its peer as it is (`Step.remoteOf_eq`), whatever else `net_send` sets
off.
-/

namespace Roots

open Prog RouterM Relation
open Sample (smallKey)

section

variable [Crypto]

/-! ## What a session knows of its peer -/

/-- The init that a session has last taken in. -/
def Session.remote (s : Session) : SessionInit := ⟨s.current, s.next, s.remoteKeySeq, s.seq⟩

@[simp]
theorem Session.remote_applyUpdate (s : Session) (init : SessionInit) (keys : BoxKeys) :
    (s.applyUpdate init keys).remote = init := rfl

@[simp]
theorem Session.remote_encrypt (s : Session) (msg : Bytes) (keys : BoxKeys) :
    (s.encrypt msg keys).1.remote = s.remote := by
  show (s.advanceNonce keys).remote = s.remote
  unfold Session.advanceNonce
  split <;> rfl

/-- What the session with a peer has last taken in, if there is one. -/
def World.remoteOf (w : World) (peer : Key) : Option SessionInit :=
  (w.router.sess.sessions.lookup peer).map fun x => x.1.remote

/-- The same context with the queues and the sessions as they are. -/
def Scope.sealing (S : Scope) : Scope := { S with drops := False }

variable {S : Scope} {w w' : World} {peer : Key}

theorem World.remoteOf_insert (x : Session × Instant) :
    ((w.router.sess.sessions.insert peer x).lookup peer).map (fun x => x.1.remote) =
      some x.1.remote := by
  rw [AList.lookup_insert]
  rfl

theorem Step.remoteOf_eq (h : Step S.sealing w w') (peer : Key) :
    w'.remoteOf peer = w.remoteOf peer := by
  cases h with
  | session hdrops | sessions hdrops | bufs hdrops => exact hdrops.elim
  | encrypt k s t t' msg keys hs =>
    show ((w.router.sess.sessions.insert k _).lookup peer).map _ = _
    rw [Assoc.lookup_insert_ite, World.remoteOf]
    split
    · rename_i heq
      rw [heq, hs]
      exact congrArg some (s.remote_encrypt msg keys)
    · rfl
  | _ => rfl

/-- A program that only seals leaves it as it is. -/
theorem remoteOf_of_obeys {α : Type} {m : RouterM α} (hw : Inv .free w)
    (hm : Obeys (rules Scope.free.sealing False) m w) (peer : Key) :
    (m w).2.remoteOf peer = w.remoteOf peer := by
  have hwalk : ReflTransGen (Step Scope.free.sealing) w (m w).2 := hm.walk { hw with }
  generalize (m w).2 = w' at hwalk
  induction hwalk with
  | refl => rfl
  | tail _ hstep ih => exact (hstep.remoteOf_eq peer).trans ih

theorem sendAck_sealing (peer : Key) (ack : Option SessionInit) :
    (rules Scope.free.sealing False).Allows (sendAck netSend peer ack) :=
  sendAck_allows (netSend_allows False.elim) False.elim ack

theorem ackAndFlush_sealing (ack : Option SessionInit) (held : Option HeldBuf) :
    (rules Scope.free.sealing False).Allows (ackAndFlush netSend peer ack held) := by
  refine fun w => .bind (orLose_obeys (sendAck_sealing peer ack w)) fun _ w' _ => ?_
  split
  · exact .pure _
  · exact sessionSendInner_obeys (sendsFrom_of_allows (netSend_allows False.elim) _ _) trivial trivial

/-! ## Opening -/

theorem Session.remote_opening (init : SessionInit) (held : Option HeldBuf)
    (recv send next : BoxKeys) :
    (Session.opening init held recv send next).remote =
      { init with keySeq := 0, seq := init.seq - 1 } := by
  cases held <;> rfl

/-- A session for a message is made, handles it and is stored; then the ack and what was held go
out. -/
theorem openSession_run (hw : Inv S w) (hvalid : Crypto.validKey peer = true) (init : SessionInit)
    (t : Instant) :
    ∃ (s : Session) (seq : UInt64) (keys : BoxKeys) (v : World),
      s.remote = { init with keySeq := 0, seq := init.seq - 1 } ∧ s.localKeySeq = 0 ∧ Inv S v ∧
      v.router.key = w.router.key ∧ v.outbox = w.outbox ∧
      v.router.sess.sessions.lookup peer = some ((s.handleInit init seq keys).1, t) ∧
      ∀ netSend, openSession netSend peer init t w =
        ackAndFlush netSend peer (s.handleInit init seq keys).2 (w.router.sess.bufs.lookup peer) v := by
  obtain ⟨d, hd⟩ : ∃ d, d = w.drawn 0 1 2 4 0 3 0 := ⟨_, rfl⟩
  obtain ⟨s, hs⟩ : ∃ s, s = Session.opening init (w.router.sess.bufs.lookup peer) d.first d.second
    d.third := ⟨_, rfl⟩
  obtain ⟨seq, hseq⟩ : ∃ seq, seq = nextInitSeq d.unixNow w.router.sess.initSeq := ⟨_, rfl⟩
  refine ⟨s, seq, d.fourth, { w with
      tick := w.tick + 5
      router.sess.initSeq := seq
      router.sess.bufs := w.router.sess.bufs.erase peer
      router.sess.sessions := (w.router.sess.sessions.insert peer (s, t)).insert peer
        ((s.handleInit init seq d.fourth).1, t) }, ?_, ?_, ?_, rfl, rfl, AList.lookup_insert _, ?_⟩
  · rw [hs]
    exact Session.remote_opening ..
  · rw [hs]
    exact Session.localKeySeq_opening ..
  · refine { hw with valid := fun k hk => ?_, bufs := fun k held hlookup => ?_ }
    · rcases AList.mem_insert _ |>.mp hk with rfl | hmem
      · exact hvalid
      · rcases AList.mem_insert _ |>.mp hmem with rfl | hmem
        · exact hvalid
        · exact hw.valid k hmem
    · rw [Assoc.lookup_erase_ite] at hlookup
      split at hlookup
      · cases hlookup
      · exact hw.bufs k held hlookup
  · intro netSend
    rw [openSession_openFor]
    subst hseq hs hd
    rfl

/-! ## First contact -/

/-- First contact is made: the session that is left has the keys and the key sequence of the
init and takes in every init with a larger number, an ack is sent, and as long as the session
stays as it is the router takes in every message that opens to such an init. -/
structure FirstContact (w : World) (peer : Key) (data : Bytes) (init : SessionInit) : Prop where
  adopted : ∃ s t, (handleSessionBytes netSend peer data w).2.router.sess.sessions.lookup peer =
      some (s, t) ∧
    s.current = init.current ∧ s.next = init.next ∧ s.remoteKeySeq = init.keySeq ∧
    ∀ init' seq keys, init.seq < init'.seq →
      (s.handleInit init' seq keys).1.remote = init' ∧ (s.handleInit init' seq keys).2.isSome = true
  answered : ∃ ack b rest, Spells w.router.key peer (.init true ack) b ∧
    (handleSessionBytes queueing peer data w).2.outbox = w.outbox ++ b :: rest
  later : ∀ v : World, Inv .free v → v.router.key = w.router.key →
    v.remoteOf peer = (handleSessionBytes netSend peer data w).2.remoteOf peer →
    ∀ data' init', SessionInit.decryptMsg (edToCurvePriv w.router.key) peer data' = some init' →
      init.seq < init'.seq →
        (handleSessionBytes netSend peer data' v).2.remoteOf peer = some init'

theorem Session.handleInit_remote_of_lt {s : Session} {init : SessionInit}
    (h : s.remote.seq < init.seq) (seq : UInt64) (keys : BoxKeys) :
    (s.handleInit init seq keys).1.remote = init ∧
      (s.handleInit init seq keys).2.isSome = true := by
  rw [Session.handleInit_of_lt h]
  exact ⟨rfl, rfl⟩

theorem remoteOf_storeSession (s : Session) (t : Instant) :
    (storeSession peer s t w).2.remoteOf peer = some s.remote :=
  World.remoteOf_insert (s, t)

/-- The sum that does not fit comes last: the session has taken the message in. -/
theorem remoteOf_abortUpdate (s updated : Session) (t : Instant) :
    (abortUpdate peer s updated t w).2.remoteOf peer = some updated.remote :=
  World.remoteOf_insert (updated.withLocalKeySeq s.localKeySeq, t)

/-- The ack leaves what was taken in as it is. -/
theorem remoteOf_store_sendAck (hw : Inv .free w) (hvalid : Crypto.validKey peer = true)
    (s : Session) (t : Instant) (ack : Option SessionInit) :
    ((do storeSession peer s t; sendAck netSend peer ack) w).2.remoteOf peer = some s.remote := by
  have hinv : Inv .free (storeSession peer s t w).2 := by
    refine { hw with valid := fun k hk => ?_ }
    rcases AList.mem_insert _ |>.mp hk with rfl | hmem
    · exact hvalid
    · exact hw.valid k hmem
  rw [← remoteOf_storeSession (w := w) s t, ← remoteOf_of_obeys hinv (sendAck_sealing peer ack _) peer]
  rfl

/-- A session takes in a message with a larger number. -/
theorem remoteOf_later (hw : Inv .free w) {known : SessionInit}
    (hknown : w.remoteOf peer = some known) {data : Bytes} {init : SessionInit}
    (hdata : SessionInit.decryptMsg (edToCurvePriv w.router.key) peer data = some init)
    (hlt : known.seq < init.seq) :
    (handleSessionBytes netSend peer data w).2.remoteOf peer = some init := by
  have hvalid := SessionInit.validKey_of_decryptMsg hdata
  obtain ⟨⟨s, t₀⟩, hlookup, hremote⟩ := Option.map_eq_some_iff.mp hknown
  have hseq : s.remote.seq < init.seq := by
    rw [hremote]
    exact hlt
  rw [handleSessionBytes_of_init netSend hdata, onInit, router, Prog.gets_bind]
  simp only [hlookup]
  split
  · rw [fresh, draw_bind]
    have hack : ∀ keys, (s.handleAck init keys).remote = init := fun keys => by
      rw [Session.handleAck_of_lt hseq]
      rfl
    cases hchecked : s.handleAckChecked init (freshBox (w.env.boxKey (w.tick + 1))) with
    | some s' =>
      simp only
      rw [remoteOf_storeSession, Session.eq_of_handleAckChecked hchecked, hack]
    | none =>
      simp only
      rw [remoteOf_abortUpdate, hack]
  · obtain ⟨seq, hnext⟩ : ∃ seq, seq = nextInitSeq (w.env.unixNow (w.tick + 1))
      w.router.sess.initSeq := ⟨_, rfl⟩
    have hinit := fun keys => (Session.handleInit_remote_of_lt hseq seq keys).1
    rw [run_bind_ok (takeInitSeq_run _), fresh, draw_bind]
    simp only [← hnext]
    cases hchecked : s.handleInitChecked init seq (freshBox (w.env.boxKey (w.tick + 1 + 1))) with
    | none =>
      simp only
      rw [remoteOf_abortUpdate, hinit]
    | some handled =>
      have hinv : Inv .free { w with tick := w.tick + 3, router.sess.initSeq := seq } := { hw with }
      refine (remoteOf_store_sendAck hinv hvalid handled.1 (w.env.now w.tick) handled.2).trans ?_
      rw [Session.eq_of_handleInitChecked hchecked, hinit]

/-- What handling a first message comes to. -/
theorem contact_run (hw : Inv .free w) (hnone : peer ∉ w.router.sess.sessions) {data : Bytes}
    {init : SessionInit}
    (hdata : SessionInit.decryptMsg (edToCurvePriv w.router.key) peer data = some init) :
    ∃ (s : Session) (seq : UInt64) (keys : BoxKeys) (v : World),
      s.remote = { init with keySeq := 0, seq := init.seq - 1 } ∧ s.localKeySeq = 0 ∧
      v.router.key = w.router.key ∧ v.outbox = w.outbox ∧
      v.router.sess.sessions.lookup peer =
        some ((s.handleInit init seq keys).1, w.env.now w.tick) ∧
      (∀ netSend, handleSessionBytes netSend peer data w =
        ackAndFlush netSend peer (s.handleInit init seq keys).2
          (w.router.sess.bufs.lookup peer) v) ∧
      (handleSessionBytes netSend peer data w).2.remoteOf peer =
        some (s.handleInit init seq keys).1.remote := by
  obtain ⟨s, seq, keys, v, hremote, hlocal, hv, hkey, hout, hopen, hrun⟩ :=
    openSession_run (w := { w with tick := w.tick + 1 }) (hw.step .tick)
      (SessionInit.validKey_of_decryptMsg hdata) init (w.env.now w.tick)
  have hbytes : ∀ netSend, handleSessionBytes netSend peer data w =
      ackAndFlush netSend peer (s.handleInit init seq keys).2 (w.router.sess.bufs.lookup peer) v := by
    intro netSend
    rw [handleSessionBytes_of_init netSend hdata, onInit, router, Prog.gets_bind]
    simp only [AList.lookup_eq_none.mpr hnone]
    exact hrun netSend
  refine ⟨s, seq, keys, v, hremote, hlocal, hkey, hout, hopen, hbytes, ?_⟩
  rw [hbytes, remoteOf_of_obeys hv (ackAndFlush_sealing _ _ v), World.remoteOf, hopen]
  rfl

/-- The ack is the first thing that is sent. -/
theorem answered_of_some (hpoint : (edToCurvePub peer).isSome) (ack : SessionInit)
    (held : Option HeldBuf) {s : Session} {t : Instant}
    (hopen : w.router.sess.sessions.lookup peer = some (s, t)) (hroom : s.localKeySeq + 1 ≠ 0) :
    ∃ b rest, Spells w.router.key peer (.init true ack) b ∧
      (ackAndFlush queueing peer (some ack) held w).2.outbox = w.outbox ++ b :: rest := by
  have hs : (w.endOf peer).session = some s := congrArg (Option.map Prod.fst) hopen
  obtain ⟨keys, w', hrun, hrefines⟩ := ackAndFlush_refines hpoint (w.ends_endOf peer) hs hroom
    (some ack) held
  obtain ⟨items, hout, hspells⟩ := hrefines.sent
  rw [hrun, hout]
  unfold Endpoint.ackAndFlush at hspells
  split at hspells
  · obtain ⟨b, rest, hb, -, rfl⟩ := List.forall₂_cons_left_iff.mp hspells
    exact ⟨b, rest, hb, rfl⟩
  · obtain ⟨b, rest, hb, -, rfl⟩ := List.forall₂_cons_left_iff.mp hspells
    exact ⟨b, rest, hb, rfl⟩

/-- **First contact is made if and only if the sequence number of the init is not zero.** -/
theorem first_contact_iff (law : PointCrypto) (hw : Inv .free w)
    (hnone : peer ∉ w.router.sess.sessions) {data : Bytes} {init : SessionInit}
    (hdata : SessionInit.decryptMsg (edToCurvePriv w.router.key) peer data = some init) :
    FirstContact w peer data init ↔ init.seq ≠ 0 := by
  obtain ⟨s, seq, keys, v, hremote, hlocal, hkey, hout, hopen, hbytes, hleft⟩ :=
    contact_run hw hnone hdata
  have hstart : s.seq = init.seq - 1 := congrArg SessionInit.seq hremote
  constructor
  · intro hcontact hzero
    obtain ⟨s', t, hlookup, -, -, -, hlater⟩ := hcontact.adopted
    -- The session has the largest number there is and refused the init.
    have hmax : s.seq = maxU64 := by
      rw [hstart, hzero]
      rfl
    have hrefused : s.handleInit init seq keys = (s, none) := by
      refine if_pos ?_
      rw [hzero]
      exact UInt64.zero_le
    have hsame : s'.remote = s.remote := by
      rw [hrefused, World.remoteOf, hlookup] at hleft
      exact Option.some.inj hleft
    have hmax' : s'.seq = maxU64 := (congrArg SessionInit.seq hsame).trans hmax
    obtain ⟨-, hsome⟩ := hlater { init with seq := 1 } 0 keys (hzero ▸ UInt64.zero_lt_one)
    have hnot : s'.handleInit { init with seq := 1 } 0 keys = (s', none) := by
      refine if_pos ?_
      rw [hmax']
      show (1 : UInt64) ≤ maxU64
      decide
    rw [hnot] at hsome
    cases hsome
  · intro hseq
    have htaken := Session.handleInit_of_new hseq hstart seq keys
    rw [htaken] at hleft
    refine ⟨?_, ?_, ?_⟩
    · obtain ⟨⟨s', t⟩, hlookup, hremote'⟩ := Option.map_eq_some_iff.mp hleft
      have hseq' : s'.remote.seq = init.seq := congrArg SessionInit.seq hremote'
      refine ⟨s', t, hlookup, congrArg SessionInit.current hremote', congrArg SessionInit.next hremote',
        congrArg SessionInit.keySeq hremote', fun init' seq' keys' hlt => ?_⟩
      exact Session.handleInit_remote_of_lt (hseq'.symm ▸ hlt) seq' keys'
    · have hmoved := s.toNat_localKeySeq_handleInit_le keys init seq
      rw [hlocal] at hmoved
      have hcount : (s.handleInit init seq keys).1.localKeySeq.toNat ≤ 1 := hmoved
      rw [hbytes, htaken, ← hkey, ← hout]
      obtain ⟨b, rest, hspells, hsent⟩ := answered_of_some
        (law peer (SessionInit.validKey_of_decryptMsg hdata)) ((s.applyUpdate init keys).makeInit seq)
        (w.router.sess.bufs.lookup peer) hopen (succ_ne_zero (by omega))
      exact ⟨_, b, rest, hspells, hsent⟩
    · intro v' hv' hkey' hsame data' init' hdata' hlt
      rw [hleft] at hsame
      rw [← hkey'] at hdata'
      exact remoteOf_later hv' hsame hdata' hlt

end

/-! ## A peer that counts from zero -/

section

attribute [local instance] Sample.lenient

/-- An init of the node with key 3, with a sequence number. -/
def countedInit (seq : UInt64) : SessionInit where
  current := smallKey 1
  next := smallKey 2
  keySeq := 5
  seq := seq

/-- Its bytes for the node with key 9. -/
def countedBytes (seq : UInt64) : Bytes :=
  ((countedInit seq).encryptMsg sessionTypeInit (smallKey 3) (smallKey 9)
    (smallKey 4)).getD []

/-- The node with key 9, without links. -/
def contacted : World := .init (smallKey 9) (.even 1)

theorem contacted_facts : contacted.router.sess.sessions.keys = [] ∧
    SessionInit.decryptMsg (edToCurvePriv contacted.router.key) (smallKey 3)
      (countedBytes 0) = some (countedInit 0) ∧
    SessionInit.decryptMsg (edToCurvePriv contacted.router.key) (smallKey 3)
      (countedBytes 1) = some (countedInit 1) ∧
    (handleSessionBytes queueing (smallKey 3) (countedBytes 0) contacted).2.outbox = [] := by
  decide +kernel

theorem contacted_new : smallKey 3 ∉ contacted.router.sess.sessions := by
  rw [AList.mem_keys, contacted_facts.1]
  exact List.not_mem_nil

/-- A peer that counts from one is met. -/
theorem first_contact_one :
    FirstContact contacted (smallKey 3) (countedBytes 1) (countedInit 1) :=
  (first_contact_iff (Sample.pointCrypto) (Inv.init trivial _) contacted_new
    contacted_facts.2.2.1).mpr (by decide)

/-- The first init of one that counts from zero opens and verifies and is not answered. -/
theorem not_first_contact_zero :
    contacted.Reachable ∧ smallKey 3 ∉ contacted.router.sess.sessions ∧
      SessionInit.decryptMsg (edToCurvePriv contacted.router.key) (smallKey 3)
        (countedBytes 0) = some (countedInit 0) ∧
      ¬ FirstContact contacted (smallKey 3) (countedBytes 0) (countedInit 0) := by
  obtain ⟨-, hopens, -, hsilent⟩ := contacted_facts
  refine ⟨⟨_, _, [], rfl⟩, contacted_new, hopens, fun hcontact => ?_⟩
  obtain ⟨ack, b, rest, -, hsent⟩ := hcontact.answered
  rw [hsilent] at hsent
  cases hsent

end

end Roots

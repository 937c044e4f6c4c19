import Roots.Crypto.Sample
import Roots.Router.Ends
import Roots.Router.Rules.Driver

/-!
# Roots.Router.Abort

When a frame aborts the node. `dispatch_frame` reaches few partial operations: the
index of `best_link`, the slices and the `expect` of the encoders, the `expect` of
`encrypt_msg` on a destination that is not a curve point, and the sums over key sequences,
which panic where they do not fit. The invariant rules out the index, the slices and the
encoders. The rest is reached by traffic for this node in **exactly two ways**: from a source
without a session, which is answered with an init to that source although nothing has checked
the 32 bytes the peer wrote into the source field; and from a source with a session, if the
header names the last key sequence or the session has it, since `decrypt` adds one to both
before it has authenticated anything.

The local key sequence of a session also has an end, but it counts the key moves of this node from
zero and nobody can set it; a session that has got there (`World.Worn`) is left out.
-/

namespace Roots

open Prog RouterM Wire
open Sample (smallKey)

/-- A method returned a `Result`: it did not abort, and its recursion ended. -/
def Returns {α : Type} (r : Except Exit α) : Prop := r ≠ .error .panic ∧ r ≠ .error .stuck

instance {α : Type} (r : Except Exit α) : Decidable (r = .error .panic) :=
  match r with
  | .ok _ => .isFalse nofun
  | .error .panic => .isTrue rfl
  | .error (.err _) | .error .stuck => .isFalse nofun

section

variable [Crypto]

/-- A program that obeys the strict rules returns, unless a session has counted to the end. -/
theorem Returns.of_obeys {S : Scope} {α : Type} {m : RouterM α} {w : World} (hw : Inv S w)
    (h : Obeys (rules S True) m w) (hworn : ¬ (m w).2.Worn) : Returns (m w).1 :=
  ⟨fun hpanic => h.not_bad hw hpanic ⟨trivial, rfl, fun _ => hworn⟩,
    fun hstuck => h.not_bad hw hstuck ⟨trivial, rfl, nofun⟩⟩

/-! ## The aborts -/

/-- Traffic that the node cannot deal with aborts it: the init cannot be encrypted, or the sum
does not fit. -/
theorem onTraffic_aborts {netSend : NetSend} {src : Key} {data : Bytes} {w : World}
    (h : w.Chokes src data) (t : Instant) : (onTraffic netSend src data t w).1 = .error .panic := by
  unfold World.Chokes at h
  cases hlookup : w.router.sess.sessions.lookup src with
  | none =>
    rw [hlookup] at h
    have hmsg : ∀ init msgType fromEd eph,
        SessionInit.encryptMsg init msgType fromEd src eph = none := by
      intro init msgType fromEd eph
      rw [← Option.not_isSome_iff_eq_none, SessionInit.encryptMsg_isSome, h]
      simp
    obtain ⟨_, _, hrun⟩ := onTraffic_of_none netSend hlookup data t
    rw [hrun]
    simp [run_bind, encryptInit_run, hmsg]
  | some x =>
    obtain ⟨s, t₀⟩ := x
    rw [hlookup] at h
    obtain ⟨v, -, hruns⟩ := onTraffic_of_some netSend hlookup data t
    rw [hruns none (Session.decryptChecked_of_headerFull h _ _)]

theorem handleSessionBytes_aborts {netSend : NetSend} {src : Key} {data : Bytes} {w : World}
    (hhead : data.head? = some sessionTypeTraffic) (h : w.Chokes src data) :
    (handleSessionBytes netSend src data w).1 = .error .panic := by
  unfold handleSessionBytes
  rw [hhead]
  show (onTraffic netSend src data _ { w with tick := w.tick + 1 }).1 = _
  exact onTraffic_aborts (w := { w with tick := w.tick + 1 }) h _

theorem handleInboundTraffic_aborts {w : World} {tr : Traffic} (h : w.Unanswerable tr) :
    (handleInboundTraffic tr w).1 = .error .panic := by
  have hforward : forward tr w = (.ok false, w) := forward_eq_false.mpr ⟨rfl, h.arrived⟩
  rw [handleInboundTraffic, run_bind_ok hforward, if_neg Bool.false_ne_true, router,
    Prog.gets_bind, if_pos h.mine]
  exact handleSessionBytes_aborts (w := (refreshPath tr.source w).2) h.sealed h.chokes

theorem dispatchFrame_aborts {w : World} {conn : LinkId} (hlive : conn ∈ w.links.ids)
    {payload : Bytes} {tr : Traffic} (htr : Traffic.decode payload = .ok tr)
    (h : w.Unanswerable tr) : (dispatchFrame conn .traffic payload w).1 = .error .panic := by
  obtain ⟨peer, hpeer⟩ := Option.isSome_iff_exists.mp (LinkSet.peerOf_isSome.mpr hlive)
  have hframe : (handleFrame conn peer payload .traffic w).1 = .error .panic := by
    rw [handleFrame, htr]
    exact handleInboundTraffic_aborts h
  rw [dispatchFrame, links, Prog.gets_bind, hpeer]
  exact fst_bind_error hframe

/-- Traffic of a session whose sums fit is not such a packet. -/
theorem World.not_unanswerable_of_some {w : World} {tr : Traffic} {x : Session × Instant}
    (hlookup : w.router.sess.sessions.lookup tr.source = some x)
    (hfits : x.1.headerFull tr.payload = false) : ¬ w.Unanswerable tr := by
  intro h
  have hfull := h.chokes
  rw [World.Chokes, hlookup] at hfull
  exact Bool.false_ne_true (hfits.symm.trans hfull)

/-- **A frame aborts the node if and only if it is such a packet**, as long as no session has
counted its own key moves to the end. -/
theorem dispatchFrame_returns_iff (law : PointCrypto) {w : World} (hw : w.Reachable)
    {conn : LinkId} (hlive : conn ∈ w.links.ids) (ftype : FrameType) (payload : Bytes)
    (hworn : ¬ (dispatchFrame conn ftype payload w).2.Worn) :
    Returns (dispatchFrame conn ftype payload w).1 ↔
      ∀ tr, ftype = .traffic → Traffic.decode payload = .ok tr → ¬ w.Unanswerable tr := by
  constructor
  · rintro hreturns tr rfl htr hun
    exact hreturns.1 (dispatchFrame_aborts hlive htr hun)
  · intro h
    refine .of_obeys hw.inv (dispatchFrame_obeys (fun _ => law) conn (Scope.free_open.takes ftype)
      ⟨?_, ?_, ?_⟩) hworn
    · exact fun _ _ _ _ => trivial
    · exact fun _ _ _ _ _ _ => trivial
    · exact fun _ hftype tr htr => h tr hftype htr

end

/-! ## A run -/

section

attribute [local instance] Sample.lenient

/-- A node with one link, to a peer that has said nothing yet. -/
def oneLink : World :=
  (World.init (smallKey 9) (.even 1)).run [.connect (smallKey 3) 0 true]

/-- Traffic for that node from `source`. -/
def stray (source : Key) (payload : Bytes) : Traffic where
  path := []
  «from» := []
  source := source
  dest := smallKey 9
  watermark := 0
  payload := payload

/-- An init of a session from the node with key 3 to the node with key 9. -/
def hello : Traffic :=
  stray (smallKey 3) <|
    (SessionInit.encryptMsg
      { current := smallKey 1, next := smallKey 2, keySeq := 0, seq := 1000 }
      sessionTypeInit (smallKey 3) (smallKey 9) (smallKey 4)).getD []

/-- That node, with a session with its peer. -/
def oneSession : World := oneLink.act (.frame 0 .traffic hello.bytes)

/-- A traffic header that names `lks`, over a body that nobody sealed. -/
def unsealed (lks : UInt64) : Bytes :=
  sessionTypeTraffic :: (uvarint 0 ++ uvarint lks ++ uvarint 1 ++ List.replicate 48 0)

theorem oneLink_reachable : oneLink.Reachable := ⟨_, _, _, rfl⟩

theorem oneSession_reachable : oneSession.Reachable := oneLink_reachable.act _

/-- One frame of 68 bytes whose source field spells no point aborts a fresh node; one whose header
names the last key sequence, in the name of a peer with a session, aborts a node that has one. -/
theorem stray_frame_aborts :
    (oneLink.Reachable ∧ 0 ∈ oneLink.links.ids ∧
        (dispatchFrame 0 .traffic (stray Sample.notAPoint [sessionTypeTraffic]).bytes oneLink).1 =
          .error .panic) ∧
      oneSession.Reachable ∧ 0 ∈ oneSession.links.ids ∧
        (dispatchFrame 0 .traffic (stray (smallKey 3) (unsealed maxU64)).bytes oneSession).1 =
          .error .panic :=
  ⟨⟨oneLink_reachable, by decide +kernel, by decide +kernel⟩, oneSession_reachable,
    by decide +kernel, by decide +kernel⟩

/-- The facts of a frame in the name of that peer whose header names no sequence so late. -/
theorem oneSession_facts : 0 ∈ oneSession.links.ids ∧
    (Traffic.decode (stray (smallKey 3) (unsealed 0)).bytes).toOption.map
      (fun tr => (tr.source, tr.payload)) = some (smallKey 3, unsealed 0) ∧
    ((oneSession.router.sess.sessions.lookup (smallKey 3)).all fun x =>
      !x.1.headerFull (unsealed 0)) = true ∧
    (smallKey 3) ∈ oneSession.router.sess.sessions ∧
    ¬ (dispatchFrame 0 .traffic (stray (smallKey 3) (unsealed 0)).bytes oneSession).2.Worn := by
  decide +kernel

/-- The same frame with another header is answered. -/
theorem dispatchFrame_returns_stray :
    Returns
      (dispatchFrame 0 .traffic (stray (smallKey 3) (unsealed 0)).bytes oneSession).1 := by
  obtain ⟨hlive, hdecode, hheader, hsession, hworn⟩ := oneSession_facts
  refine (dispatchFrame_returns_iff (Sample.pointCrypto) oneSession_reachable hlive .traffic _
    hworn).mpr fun tr _ htr h => ?_
  obtain ⟨hsource, hpayload⟩ : tr.source = smallKey 3 ∧ tr.payload = unsealed 0 := by
    simpa [htr, Except.toOption] using hdecode
  obtain ⟨x, hlookup⟩ := Assoc.mem_iff_lookup.mp hsession
  rw [hlookup, Option.all_some, Bool.not_eq_true'] at hheader
  rw [← hsource] at hlookup
  rw [← hpayload] at hheader
  exact World.not_unanswerable_of_some hlookup hheader h

end

end Roots

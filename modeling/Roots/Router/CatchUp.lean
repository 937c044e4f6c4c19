import Roots.Crypto.Sample
import Roots.Lib.Counter
import Roots.Router.Converge
import Roots.Router.Parent

/-!
# Roots.Router.CatchUp

Own announces that come back. After a restart a router counts its own infos from one again, and a
peer hands it the announce it made before with a higher sequence number. `handle_announce` adopts
it and asks for a refresh; the next tick should then put an info with a higher number still in its
place.

It does not always. `use_response` refuses an answer to a request that is older than the adopted
announce, and takes one of the same number if its parent or nonce is lower. No other request goes
out before an answer was used, and `do_root2` is not set again once the first tick has cleared it.
**The number passes the adopted one exactly if a later action finds a newer answer or announce, or
`do_root2` still set** (`own_seq_passes_iff`).
-/

namespace Roots

open Prog RouterM Wire Relation
open Sample (smallKey)

section

variable [Crypto]

/-! ## Own infos -/

/-- The info a router has about itself. -/
def World.own (w : World) : Option Info := w.router.tree.infos.lookup w.router.pubkey

/-- The own info has at least the sequence number `s`. -/
def World.Reached (w : World) (s : UInt64) : Prop :=
  ∃ info, w.own = some info ∧ s ≤ info.res.req.seq

/-- The own info has a higher sequence number than `s`. -/
def World.Passed (w : World) (s : UInt64) : Prop :=
  ∃ info, w.own = some info ∧ s < info.res.req.seq

/-- An announce about the router itself comes in on a link, and `handle_announce` adopts it. -/
structure World.AdoptsOwn (w : World) (conn : LinkId) (payload : Bytes) (ann : Announce) :
    Prop where
  linked : (w.links.peerOf conn).isSome
  decoded : Announce.decodeExact payload = .ok ann
  checked : ann.check = true
  own : ann.key = w.router.pubkey
  adopted : w.router.tree.adopts ann = true

/-- No timer of the tree has run out at a tick that starts now. -/
def World.Timely (w : World) : Prop :=
  w.router.tree.dead (w.env.now w.tick) = [] ∧
    ∀ due ∈ w.router.tree.selfRefreshAt, w.env.now w.tick < due

instance (w : World) : Decidable w.Timely := inferInstanceAs (Decidable (_ ∧ _))

/-- The action puts an own info in place that is newer than the sequence number `s`: a tick uses an
answer to a newer request or makes the router a root, or a newer announce of its own comes in. -/
def World.Renews (w : World) (s : UInt64) : Action → Prop
  | .maintain =>
      match w.router.move w.links with
      | .follow _ res => s < res.req.seq
      | .root => s ≠ maxU64
      | _ => False
  | .frame conn .announce payload => ∃ ann, w.AdoptsOwn conn payload ann ∧ s < ann.res.req.seq
  | _ => False

instance (w : World) (s : UInt64) : Decidable (w.Renews s .maintain) := by
  unfold World.Renews
  cases w.router.move w.links <;> infer_instance

variable {w : World} {s : UInt64}

/-! ## One action -/

omit [Crypto] in
theorem lt_maxU64_iff {x : UInt64} : x < maxU64 ↔ x ≠ maxU64 := by
  have hx := x.toNat_lt
  have hmax : maxU64.toNat = 2 ^ 64 - 1 := rfl
  rw [UInt64.lt_iff_toNat_lt, ne_eq, ← UInt64.toNat_inj, hmax]
  omega

omit [Crypto] in
theorem TreeState.supersedes_seq {ann : Announce} {info : Info}
    (h : supersedes ann info = true) : info.res.req.seq ≤ ann.res.req.seq := by
  rcases of_decide_eq_true h with hlt | ⟨heq, -⟩
  · exact UInt64.le_of_lt hlt
  · exact UInt64.le_of_eq heq

theorem World.Timely.expired (h : w.Timely) : w.expired = { w with tick := w.tick + 1 } := by
  have hexpire : w.router.tree.expire (w.env.now w.tick) = w.router.tree := by
    rw [TreeState.expire, h.1, List.foldl_nil, TreeState.refreshDue]
    cases hrefresh : w.router.tree.selfRefreshAt with
    | none => rfl
    | some due => exact if_neg (Nat.not_le.mpr (h.2 due hrefresh))
  rw [World.expired, hexpire]

/-- What a step may do to the own info: it stays, or one with another number takes its place. -/
structure OwnStep (s : UInt64) (renews : Prop) (w w' : World) : Prop where
  reached : w'.Reached s
  passed : w'.Passed s ↔ w.Passed s ∨ renews

theorem OwnStep.of_same {w' : World} {renews : Prop} (h : w.Reached s) (hsame : w'.own = w.own)
    (hrenews : ¬ renews) : OwnStep s renews w w' where
  reached := by
    unfold World.Reached
    rwa [hsame]
  passed := by
    unfold World.Passed
    rw [hsame]
    exact (or_iff_left hrenews).symm

/-- The own info gives way to one of at least its number. -/
theorem OwnStep.of_replaced {w' : World} {renews : Prop} {info info' : Info} (h : w.Reached s)
    (hown : w.own = some info) (hown' : w'.own = some info')
    (hle : info.res.req.seq ≤ info'.res.req.seq) (hrenews : renews ↔ s < info'.res.req.seq) :
    OwnStep s renews w w' := by
  obtain ⟨info₀, hinfo, hreached⟩ := h
  cases hown.symm.trans hinfo
  refine ⟨⟨info', hown', UInt64.le_trans hreached hle⟩, ?_⟩
  rw [hrenews]
  constructor
  · rintro ⟨_, hinfo', hlt⟩
    cases hown'.symm.trans hinfo'
    exact .inr hlt
  · rintro (⟨_, hinfo', hlt⟩ | hlt)
    · cases hown.symm.trans hinfo'
      exact ⟨info', hown', UInt64.lt_of_lt_of_le hlt hle⟩
    · exact ⟨info', hown', hlt⟩

/-- A tick. -/
theorem maintain_ownStep (hinv : Inv .free w) (h : w.Reached s) (htime : w.Timely) :
    OwnStep s (w.Renews s .maintain) w (w.act .maintain) := by
  obtain ⟨info, hown, hle⟩ := id h
  obtain ⟨n, hstand⟩ := maintain_stand hinv
  rw [htime.expired] at hstand
  have hown' : (w.act .maintain).own =
      ((w.router.move w.links).stand { w with tick := n }).infos.lookup w.router.pubkey := by
    rw [← hstand]
    exact congrArg (fun k => (w.act .maintain).router.tree.infos.lookup k) (w.pubkey_act hinv _)
  cases hmove : w.router.move w.links with
  | stay | wait =>
    rw [hmove] at hown'
    refine .of_same h hown' ?_
    simp [World.Renews, hmove]
  | follow k res =>
    obtain ⟨-, -, -, -, hadopts⟩ := Router.move_eq_follow hmove
    have hseq := hadopts.symm.trans (TreeState.adopts_of_lookup (ownAnnounce w.router k res) hown)
    rw [hmove] at hown'
    refine .of_replaced h hown (hown'.trans (Move.lookup_follow { w with tick := n } k res))
      (TreeState.supersedes_seq hseq.symm) ?_
    simp only [World.Renews, hmove]
    rfl
  | root =>
    rw [hmove] at hown'
    have hlookup := hown'.trans (Move.lookup_root { w with tick := n })
    have hclaim : (World.rootClaim { w with tick := n }).res.req.seq = info.res.req.seq + 1 := by
      have hlookup : w.router.tree.infos.lookup w.router.pubkey = some info := hown
      simp only [World.rootClaim, rootAnnounce, SigRes.seal, hlookup]
    have hadopts : w.router.tree.adopts (World.rootClaim { w with tick := n }) =
        TreeState.supersedes (World.rootClaim { w with tick := n }) info :=
      TreeState.adopts_of_lookup _ hown
    have hrenews : w.Renews s .maintain ↔ s ≠ maxU64 := by simp only [World.Renews, hmove]
    have hnext : info.res.req.seq < info.res.req.seq + 1 ↔ info.res.req.seq ≠ maxU64 :=
      Counter.lt_add_one_iff
    by_cases hlast : info.res.req.seq = maxU64
    · -- the number wraps to zero, and the announce is not adopted
      have hrefused : w.router.tree.adopts (World.rootClaim { w with tick := n }) = false := by
        rw [hadopts, TreeState.supersedes, decide_eq_false_iff_not, hclaim]
        rintro (hlt | ⟨heq, -⟩)
        · exact hnext.mp hlt hlast
        · rw [hlast] at heq
          exact absurd heq (by decide)
      rw [if_neg (by rw [hrefused]; exact Bool.false_ne_true)] at hlookup
      refine .of_replaced h hown (hlookup.trans hown) (UInt64.le_refl _) ?_
      rw [hrenews, hlast, lt_maxU64_iff]
    · have hadopted : w.router.tree.adopts (World.rootClaim { w with tick := n }) = true := by
        rw [hadopts, TreeState.supersedes, decide_eq_true_iff, hclaim]
        exact .inl (hnext.mpr hlast)
      rw [if_pos hadopted] at hlookup
      have hlt : info.res.req.seq < (World.rootClaim { w with tick := n }).info.res.req.seq :=
        (hnext.mpr hlast).trans_eq hclaim.symm
      refine .of_replaced h hown hlookup (UInt64.le_of_lt hlt) (iff_of_true ?_ ?_)
      · rw [hrenews]
        rintro rfl
        exact absurd (lt_maxU64_iff.mpr hlast) (UInt64.not_lt.mpr hle)
      · exact UInt64.lt_of_le_of_lt hle hlt

/-- What `handle_frame` does to the infos is what the frame does. -/
theorem infos_dispatch (hinv : Inv .free w) {conn : LinkId} {payload : Bytes} {peer : Key}
    (hpeer : w.links.peerOf conn = some peer) {infos : Assoc Key Info}
    (h : (handleFrame conn peer payload .announce w).2.router.tree.infos = infos) :
    (dispatchFrame conn .announce payload w).2.router.tree.infos = infos := by
  rw [dispatchFrame, links, Prog.gets_bind, hpeer]
  refine snd_bind (P := fun w' : World => w'.router.tree.infos = infos) h fun _ w' h' hinfos => ?_
  have hidle : (rules Scope.free.steady False).Allows (keepaliveIfIdle conn) :=
    keepaliveIfIdle_allows conn
  exact (Steady.of_allows hidle (inv_handleFrame hinv hpeer h')).infos.trans hinfos

theorem infos_handleFrame (hinv : Inv .free w) {conn : LinkId} {payload : Bytes} {peer : Key}
    (hpeer : w.links.peerOf conn = some peer) {ann : Announce}
    (hdecode : Announce.decodeExact payload = .ok ann) (hcheck : ann.check = true) :
    (handleFrame conn peer payload .announce w).2.router.tree.infos =
      if w.router.tree.adopts ann then w.router.tree.infos.insert ann.key ann.info
      else w.router.tree.infos := by
  rw [handleFrame, hdecode]
  show ((if ann.check then _ else _ : RouterM Unit) w).2.router.tree.infos = _
  rw [if_pos hcheck]
  have hobeys : Obeys (rules .free False) (handleAnnounce peer ann) w :=
    handleAnnounce_obeys trivial trivial trivial (hinv.peer_mem hpeer) hcheck
  refine snd_bind (P := fun w' : World => w'.router.tree.infos = _)
    (handleAnnounce_run peer ann w).2.1 fun reply w' h' hinfos => ?_
  cases reply with
  | none => exact hinfos
  | some better =>
    have hwrite : (rules Scope.free.steady False).Allows (write conn .announce better.encode) :=
      write_allows (Writes.wrote (by decide) (by decide)) _ _
    exact (Steady.of_allows hwrite (hobeys.inv_of_eq hinv h')).infos.trans hinfos

/-- What an announce frame does to the infos. -/
theorem infos_announce (hinv : Inv .free w) (conn : LinkId) (payload : Bytes) :
    (w.act (.frame conn .announce payload)).router.tree.infos = w.router.tree.infos ∧
        (∀ ann, ¬ w.AdoptsOwn conn payload ann) ∨
      ∃ ann, (w.links.peerOf conn).isSome ∧ Announce.decodeExact payload = .ok ann ∧
        ann.check = true ∧ w.router.tree.adopts ann = true ∧
        (w.act (.frame conn .announce payload)).router.tree.infos =
          w.router.tree.infos.insert ann.key ann.info := by
  show (dispatchFrame conn .announce payload w).2.router.tree.infos = _ ∧ _ ∨
    ∃ _, _ ∧ _ ∧ _ ∧ _ ∧ (dispatchFrame conn .announce payload w).2.router.tree.infos = _
  cases hpeer : w.links.peerOf conn with
  | none =>
    refine .inl ⟨?_, fun ann h => ?_⟩
    · rw [dispatchFrame, links, Prog.gets_bind, hpeer]
      rfl
    · have hlinked := h.linked
      rw [hpeer] at hlinked
      cases hlinked
  | some peer =>
    cases hdecode : Announce.decodeExact payload with
    | error e =>
      cases Announce.decodeExact_refuses payload e hdecode
      refine .inl ⟨infos_dispatch hinv hpeer ?_, fun ann h => ?_⟩
      · rw [handleFrame, hdecode]
        rfl
      · cases hdecode.symm.trans h.decoded
    | ok ann =>
      have hunique : ∀ ann', w.AdoptsOwn conn payload ann' → ann' = ann := fun ann' h' =>
        Except.ok.inj (h'.decoded.symm.trans hdecode)
      by_cases hcheck : ann.check = true
      · have hinfos := infos_dispatch hinv hpeer (infos_handleFrame hinv hpeer hdecode hcheck)
        cases hadopts : w.router.tree.adopts ann with
        | true =>
          rw [hadopts, if_pos rfl] at hinfos
          exact .inr ⟨ann, rfl, rfl, hcheck, hadopts, hinfos⟩
        | false =>
          rw [hadopts, if_neg Bool.false_ne_true] at hinfos
          refine .inl ⟨hinfos, fun ann' h' => ?_⟩
          cases hunique ann' h'
          cases hadopts.symm.trans h'.adopted
      · refine .inl ⟨infos_dispatch hinv hpeer ?_, fun ann' h' => ?_⟩
        · rw [handleFrame, hdecode]
          show (if ann.check then _ else _ : RouterM Unit) w |>.2.router.tree.infos = _
          rw [if_neg hcheck]
          rfl
        · exact hcheck (hunique ann' h' ▸ h'.checked)

/-- The own info after an announce about it was adopted. -/
theorem own_of_adoptsOwn (hinv : Inv .free w) {conn : LinkId} {payload : Bytes} {ann : Announce}
    (h : w.AdoptsOwn conn payload ann) :
    (w.act (.frame conn .announce payload)).own = some ann.info := by
  rcases infos_announce hinv conn payload with ⟨-, hnone⟩ | ⟨ann', -, hdecode, -, -, hinfos⟩
  · exact absurd h (hnone ann)
  · cases h.decoded.symm.trans hdecode
    rw [World.own, hinfos, w.pubkey_act hinv, Assoc.lookup_insert_ite, if_pos h.own.symm]

/-- A frame with an announce. -/
theorem announce_ownStep (hinv : Inv .free w) (h : w.Reached s) (conn : LinkId) (payload : Bytes) :
    OwnStep s (w.Renews s (.frame conn .announce payload)) w
      (w.act (.frame conn .announce payload)) := by
  have hpubkey := w.pubkey_act hinv (.frame conn .announce payload)
  rcases infos_announce hinv conn payload with
    ⟨hinfos, hnone⟩ | ⟨ann, hlinked, hdecode, hcheck, hadopts, hinfos⟩
  · refine .of_same h ?_ fun ⟨ann, hadopts, _⟩ => hnone ann hadopts
    rw [World.own, hinfos, hpubkey]
    rfl
  · have hown' : (w.act (.frame conn .announce payload)).own =
        if w.router.pubkey = ann.key then some ann.info else w.own := by
      rw [World.own, hinfos, hpubkey, Assoc.lookup_insert_ite]
      rfl
    have hunique : ∀ ann', w.AdoptsOwn conn payload ann' → ann' = ann := fun ann' h' =>
      Except.ok.inj (h'.decoded.symm.trans hdecode)
    by_cases hself : ann.key = w.router.pubkey
    · obtain ⟨info, hown, -⟩ := id h
      rw [if_pos hself.symm] at hown'
      have hlookup : w.router.tree.infos.lookup ann.key = some info := by rwa [hself]
      have hseq := hadopts.symm.trans (TreeState.adopts_of_lookup ann hlookup)
      refine .of_replaced h hown hown' (TreeState.supersedes_seq hseq.symm) ?_
      constructor
      · rintro ⟨ann', h', hlt⟩
        cases hunique ann' h'
        exact hlt
      · exact fun hlt => ⟨ann, ⟨hlinked, hdecode, hcheck, hself, hadopts⟩, hlt⟩
    · rw [if_neg (Ne.symm hself)] at hown'
      exact .of_same h hown' fun ⟨ann', h', _⟩ => hself (hunique ann' h' ▸ h'.own)

theorem Steady.of_walk {S : Scope} {w' : World} (h : ReflTransGen (Step S.steady) w w') :
    Steady w w' := by
  induction h with
  | refl => exact .refl w
  | tail _ hstep ih => exact ih.trans hstep.steady

theorem act_ownStep (hinv : Inv .free w) (h : w.Reached s) (a : Action)
    (htime : a = .maintain → w.Timely) : OwnStep s (w.Renews s a) w (w.act a) := by
  have hsteady : Scope.free.steady.Fits a → (w.act a).own = w.own := by
    intro hfits
    have hpermits : w.Permits Scope.free.steady False a :=
      w.permits_all (fun _ _ => trivial) (fun _ _ => trivial) (fun _ => trivial) a
    have hinfos := (Steady.of_walk ((a.body_obeys False.elim hfits hpermits).walk
      ({ hinv with } : Inv Scope.free.steady w))).infos
    show (w.act a).router.tree.infos.lookup (w.act a).router.pubkey = _
    rw [w.pubkey_act hinv]
    exact congrArg (·.lookup w.router.pubkey) hinfos
  cases a with
  | maintain => exact maintain_ownStep hinv h (htime rfl)
  | frame conn ftype payload =>
    cases ftype with
    | announce => exact announce_ownStep hinv h conn payload
    | _ => exact .of_same h (hsteady (by trivial)) not_false
  | connect => exact .of_same h (hsteady ⟨trivial, trivial, trivial, trivial⟩) not_false
  | _ => exact .of_same h (hsteady trivial) not_false

/-! ## Runs -/

theorem passed_run_iff (hinv : Inv .free w) (h : w.Reached s) {actions : List Action}
    (htime : w.Along (fun w a => a = .maintain → w.Timely) actions) :
    (w.run actions).Passed s ↔
      w.Passed s ∨ ∃ done a, done ++ [a] <+: actions ∧ (w.run done).Renews s a := by
  induction actions generalizing w with
  | nil => simp
  | cons a actions ih =>
    obtain ⟨hreached, hpassed⟩ := act_ownStep hinv h a htime.1
    have hwalk := a.act_walk Scope.free_open hinv (w.permits_free a)
    have hinv' : Inv .free (w.act a) := Rules.inv_of_walk (R := rules .free False) hwalk hinv
    rw [World.run_cons, ih hinv' hreached htime.2, hpassed, or_assoc]
    refine or_congr_right ?_
    constructor
    · rintro (hrenews | ⟨done, b, hle, hrenews⟩)
      · exact ⟨[], a, by simp, hrenews⟩
      · exact ⟨a :: done, b, by simpa using hle, hrenews⟩
    · rintro ⟨done, b, hle, hrenews⟩
      cases done with
      | nil =>
        obtain ⟨rfl, -⟩ := List.cons_prefix_cons.mp hle
        exact .inl hrenews
      | cons c done =>
        obtain ⟨rfl, hrest⟩ := List.cons_prefix_cons.mp hle
        exact .inr ⟨done, b, hrest, hrenews⟩

/-- **A router gets past its own announce that came back exactly if it finds something newer**:
after any actions, however many of them are ticks, its own sequence number is higher than the
adopted one if and only if one of them renewed the own info. -/
theorem own_seq_passes_iff (hw : w.Reachable) {conn : LinkId} {payload : Bytes} {ann : Announce}
    (hadopts : w.AdoptsOwn conn payload ann) {actions : List Action}
    (htime : (w.act (.frame conn .announce payload)).Along
      (fun w a => a = .maintain → w.Timely) actions) :
    ((w.act (.frame conn .announce payload)).run actions).Passed ann.res.req.seq ↔
      ∃ done a, done ++ [a] <+: actions ∧
        ((w.act (.frame conn .announce payload)).run done).Renews ann.res.req.seq a := by
  have hown := own_of_adoptsOwn hw.inv hadopts
  have hreached : (w.act (.frame conn .announce payload)).Reached ann.res.req.seq :=
    ⟨_, hown, UInt64.le_refl _⟩
  rw [passed_run_iff (hw.act _).inv hreached htime, or_iff_right]
  rintro ⟨info, hinfo, hlt⟩
  cases hown.symm.trans hinfo
  exact UInt64.lt_irrefl _ hlt

end

/-! ## A restart -/

section

attribute [local instance] Sample.lenient

/-- An announce that the node with key 9 made as a root before it was restarted. -/
def returned : Announce :=
  rootAnnounce (World.init (smallKey 9) (.even 1)).router ⟨5, 4⟩

/-- After the restart it has become a root again. Its neighbour has announced itself and answered
the request of that tick. -/
def restarted : World :=
  (World.init (smallKey 9) (.even 1)).run
    [.connect (smallKey 3) 0 true, .maintain, .frame 0 .announce lowRoot.encode,
      .frame 0 .sigRes (lowAnswer ⟨2, 8⟩).encode]

example : restarted.router.tree.responses.keys = [smallKey 3] := by decide +kernel

theorem restarted_reachable : restarted.Reachable := ⟨_, _, _, rfl⟩

/-- Whether a request went out. -/
def Event.isRequest : Event → Bool
  | .wrote _ .sigReq _ => true
  | _ => false

/-- The answer it has is to a request with the number two, so the announce with the number five
stays in place at the next four ticks, and no request is made that could be answered. -/
theorem returned_announce_sticks :
    restarted.Reachable ∧ restarted.AdoptsOwn 0 returned.encode returned ∧
      (restarted.act (.frame 0 .announce returned.encode)).Along
        (fun w a => a = .maintain → w.Timely) (List.replicate 4 .maintain) ∧
      ((restarted.act (.frame 0 .announce returned.encode)).run
        (List.replicate 4 .maintain)).events.countP Event.isRequest =
          restarted.events.countP Event.isRequest ∧
      ¬ ((restarted.act (.frame 0 .announce returned.encode)).run
        (List.replicate 4 .maintain)).Passed returned.res.req.seq := by
  have hfacts : let w := restarted.act (.frame 0 .announce returned.encode)
      (restarted.links.peerOf 0).isSome ∧ returned.check = true ∧
        returned.key = restarted.router.pubkey ∧ restarted.router.tree.adopts returned = true ∧
        (w.Timely ∧ (w.run (List.replicate 1 .maintain)).Timely ∧
          (w.run (List.replicate 2 .maintain)).Timely ∧
          (w.run (List.replicate 3 .maintain)).Timely) ∧
        (w.run (List.replicate 4 .maintain)).events.countP Event.isRequest =
          restarted.events.countP Event.isRequest ∧
        (w.run (List.replicate 4 .maintain)).own.map (·.res.req.seq) = some 5 := by
    decide +kernel
  obtain ⟨hlinked, hcheck, hself, hadopts, ⟨h₀, h₁, h₂, h₃⟩, hrequests, hseq⟩ := hfacts
  refine ⟨restarted_reachable, ⟨hlinked, Announce.decodeExact_encode _, hcheck, hself, hadopts⟩,
    ⟨fun _ => h₀, fun _ => h₁, fun _ => h₂, fun _ => h₃, trivial⟩, hrequests, ?_⟩
  rintro ⟨info, hinfo, hlt⟩
  rw [hinfo] at hseq
  have hfive : info.res.req.seq = 5 := Option.some.inj hseq
  rw [hfive] at hlt
  exact absurd hlt (by decide)

/-- Before its first tick, a node that gets its announce back becomes a root with the next
number. -/
theorem own_seq_passes_at_start :
    ((((World.init (smallKey 9) (.even 1)).act (.connect (smallKey 3) 0 true)).act
      (.frame 0 .announce returned.encode)).run [.maintain]).Passed returned.res.req.seq := by
  obtain ⟨w, hw⟩ : ∃ w, w =
      (World.init (smallKey 9) (.even 1)).act (.connect (smallKey 3) 0 true) :=
    ⟨_, rfl⟩
  obtain ⟨hlinked, hcheck, hself, hadopts, htime, hrenews⟩ :
      (w.links.peerOf 0).isSome ∧ returned.check = true ∧ returned.key = w.router.pubkey ∧
        w.router.tree.adopts returned = true ∧
        (w.act (.frame 0 .announce returned.encode)).Timely ∧
        (w.act (.frame 0 .announce returned.encode)).Renews 5 .maintain := by
    rw [hw]
    decide +kernel
  rw [← hw]
  have hreachable : w.Reachable := ⟨_, _, [_], hw⟩
  have htimes : (w.act (.frame 0 .announce returned.encode)).Along
      (fun w a => a = .maintain → w.Timely) [.maintain] := ⟨fun _ => htime, trivial⟩
  exact (own_seq_passes_iff hreachable
    ⟨hlinked, Announce.decodeExact_encode _, hcheck, hself, hadopts⟩ htimes).mpr
    ⟨[], .maintain, List.prefix_refl _, hrenews⟩

end

end Roots

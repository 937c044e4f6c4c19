import Mathlib.Data.Prod.Lex
import Mathlib.Order.OrderDual
import Roots.Crypto.Sample
import Roots.Router.Driver
import Roots.Wire.RoundTrip

/-!
# Roots.Router.Converge

The table of infos as a replicated one. `update` keeps the announce of the highest rank
(`Info.rank`: the highest sequence number, then the lowest parent, then the lowest nonce),
so a table only depends on **which** announces have come, not on their order or number
(`announces_converge`), as long as the rank tells them apart.

It does not tell all announces apart: a parent can sign two ports for one request. Then a
table that holds the one answers the other with "here is better", and so does the table
that holds the other: two routers correct each other forever (`ties_bounce_forever`). That
is the only way corrections do not end (`corrections_end_iff`).
-/

namespace Roots

open Prog RouterM Wire
open Sample (smallKey)

/-! ## Ranks -/

/-- What `update` compares infos by. -/
def Info.rank (info : Info) : Nat ×ₗ Natᵒᵈ ×ₗ Natᵒᵈ :=
  toLex (info.res.req.seq.toNat, toLex (OrderDual.toDual (keyNat info.parent),
    OrderDual.toDual info.res.req.nonce.toNat))

theorem Info.rank_eq_iff {a b : Info} :
    a.rank = b.rank ↔
      a.res.req.seq = b.res.req.seq ∧ a.parent = b.parent ∧ a.res.req.nonce = b.res.req.nonce := by
  unfold rank
  rw [toLex.injective.eq_iff, Prod.mk.injEq, toLex.injective.eq_iff, Prod.mk.injEq,
    UInt64.toNat_inj, OrderDual.toDual.injective.eq_iff, keyNat_injective.eq_iff,
    OrderDual.toDual.injective.eq_iff, UInt64.toNat_inj]

namespace TreeState

theorem supersedes_iff {ann : Announce} {info : Info} :
    supersedes ann info = true ↔ info.rank < ann.info.rank := by
  have hseq : info.res.req.seq = ann.res.req.seq ↔
      info.res.req.seq.toNat = ann.res.req.seq.toNat := UInt64.toNat_inj.symm
  have hparent : ann.parent = info.parent ↔ keyNat info.parent = keyNat ann.parent := by
    rw [eq_comm, keyNat_injective.eq_iff]
  unfold supersedes Info.rank
  rw [Prod.Lex.toLex_lt_toLex, Prod.Lex.toLex_lt_toLex, OrderDual.toDual_lt_toDual,
    OrderDual.toDual_lt_toDual, OrderDual.toDual.injective.eq_iff, decide_eq_true_iff, hseq, hparent,
    UInt64.lt_iff_toNat_lt, UInt64.lt_iff_toNat_lt, Key.lt_iff]
  rfl

theorem not_supersedes_iff {ann : Announce} {info : Info} :
    supersedes ann info = false ↔ ann.info.rank ≤ info.rank := by
  rw [← Bool.not_eq_true, supersedes_iff, not_lt]

theorem adopts_of_lookup {t : TreeState} (ann : Announce) {info : Info}
    (h : t.infos.lookup ann.key = some info) : t.adopts ann = supersedes ann info := by
  rw [adopts, h]

end TreeState

/-! ## One announce -/

section

variable [Crypto]

/-- What `handle_announce` answers: the info it has, if that is another one and it keeps it. -/
def World.correction (w : World) (ann : Announce) : Option Announce :=
  if w.router.tree.adopts ann then none
  else ((w.router.tree.infos.lookup ann.key).filter (· ≠ ann.info)).map (Info.announce · ann.key)

theorem handleAnnounce_run (src : Key) (ann : Announce) (w : World) :
    (handleAnnounce src ann w).1 = .ok (w.correction ann) ∧
      (handleAnnounce src ann w).2.router.tree.infos =
        (if w.router.tree.adopts ann then w.router.tree.infos.insert ann.key ann.info
        else w.router.tree.infos) ∧
      (handleAnnounce src ann w).2.router.pubkey = w.router.pubkey := by
  have hinfos := w.router.tree.infos_update w.router.pubkey ann (w.env.now w.tick)
  rw [handleAnnounce, router, Prog.gets_bind, run_bind_ok (updateTree_run ann w), World.correction]
  cases hadopts : w.router.tree.adopts ann with
  | true =>
    rw [hadopts] at hinfos
    by_cases hkey : ann.key = w.router.pubkey
    · simp [hkey, modifyTree, hinfos]
    · simp [hkey, modifyTree, hinfos]
  | false =>
    rw [hadopts] at hinfos
    cases hlookup : w.router.tree.infos.lookup ann.key with
    | none => simp [modifyTree, hinfos]
    | some info =>
      by_cases heq : info = ann.info
      · simp [modifyTree, hinfos, heq]
      · simp [modifyTree, hinfos, heq]

/-! ## Any order -/

/-- The announces that came, and whom they came from, through `handle_announce`. -/
def World.deliver (w : World) (arrivals : List (Key × Announce)) : World :=
  arrivals.foldl (fun w x => (handleAnnounce x.1 x.2 w).2) w

omit [Crypto] in
/-- The table holds the highest announce of each key, of those that came. -/
def Latest (infos : Assoc Key Info) (anns : List Announce) : Prop :=
  (∀ k info, infos.lookup k = some info → ∃ a ∈ anns, a.key = k ∧ a.info = info) ∧
    ∀ a ∈ anns, ∃ info, infos.lookup a.key = some info ∧ a.info.rank ≤ info.rank

omit [Crypto] in
theorem Latest.nil : Latest ∅ [] := ⟨by simp, by simp⟩

/-- One more announce. -/
theorem Latest.concat {w : World} {anns : List Announce} (h : Latest w.router.tree.infos anns)
    (src : Key) (ann : Announce) :
    Latest (handleAnnounce src ann w).2.router.tree.infos (anns ++ [ann]) := by
  rw [(handleAnnounce_run src ann w).2.1]
  obtain ⟨hsource, hbest⟩ := h
  cases hadopts : w.router.tree.adopts ann with
  | true =>
    rw [if_pos rfl]
    -- What the announce takes the place of ranks lower.
    have hhigher : ∀ info, w.router.tree.infos.lookup ann.key = some info →
        info.rank < ann.info.rank := by
      intro info hinfo
      rw [TreeState.adopts, hinfo] at hadopts
      exact TreeState.supersedes_iff.mp hadopts
    constructor
    · intro k info hlookup
      rw [Assoc.lookup_insert_ite] at hlookup
      split_ifs at hlookup with hk
      · cases hlookup
        exact ⟨ann, by simp, hk.symm, rfl⟩
      · obtain ⟨a, ha, hkey⟩ := hsource k info hlookup
        exact ⟨a, by simp [ha], hkey⟩
    · intro a ha
      rw [List.mem_append, List.mem_singleton] at ha
      by_cases hk : a.key = ann.key
      · refine ⟨ann.info, by rw [hk, AList.lookup_insert], ?_⟩
        rcases ha with ha | rfl
        · obtain ⟨info, hinfo, hle⟩ := hbest a ha
          exact (hle.trans_lt (hhigher info (hk ▸ hinfo))).le
        · exact le_rfl
      · rcases ha with ha | rfl
        · rw [AList.lookup_insert_ne hk]
          exact hbest a ha
        · exact absurd rfl hk
  | false =>
    rw [if_neg Bool.false_ne_true]
    refine ⟨fun k info hlookup => ?_, fun a ha => ?_⟩
    · obtain ⟨a, ha, hkey⟩ := hsource k info hlookup
      exact ⟨a, by simp [ha], hkey⟩
    · rw [List.mem_append, List.mem_singleton] at ha
      rcases ha with ha | rfl
      · exact hbest a ha
      · unfold TreeState.adopts at hadopts
        split at hadopts
        · rename_i info hinfo
          exact ⟨info, hinfo, TreeState.not_supersedes_iff.mp hadopts⟩
        · cases hadopts

theorem Latest.deliver {w : World} {anns : List Announce} (h : Latest w.router.tree.infos anns)
    (arrivals : List (Key × Announce)) :
    Latest (w.deliver arrivals).router.tree.infos (anns ++ arrivals.map Prod.snd) := by
  induction arrivals generalizing w anns with
  | nil => simpa [World.deliver] using h
  | cons x arrivals ih =>
    have hstep := ih (h.concat x.1 x.2)
    rwa [List.append_assoc] at hstep

omit [Crypto] in
/-- Where the rank tells the announces of a key apart, the table is known from the
announces. -/
theorem Latest.lookup_iff {infos : Assoc Key Info} {anns : List Announce} (h : Latest infos anns)
    (hdistinct : ∀ a ∈ anns, ∀ b ∈ anns, a.key = b.key → a.info.rank = b.info.rank → a = b)
    (k : Key) (info : Info) :
    infos.lookup k = some info ↔ ∃ a ∈ anns, a.key = k ∧ a.info = info ∧
      ∀ b ∈ anns, b.key = k → b ≠ a → TreeState.supersedes a b.info = true := by
  obtain ⟨hsource, hbest⟩ := h
  constructor
  · intro hlookup
    obtain ⟨a, ha, rfl, rfl⟩ := hsource k info hlookup
    refine ⟨a, ha, rfl, rfl, fun b hb hkey hne => ?_⟩
    obtain ⟨info, hinfo, hle⟩ := hbest b hb
    rw [hkey, hlookup] at hinfo
    cases hinfo
    refine TreeState.supersedes_iff.mpr (lt_of_le_of_ne hle fun heq => hne ?_)
    exact hdistinct b hb a ha hkey heq
  · rintro ⟨a, ha, rfl, rfl, hfirst⟩
    obtain ⟨info, hinfo, hle⟩ := hbest a ha
    obtain ⟨b, hb, hkey, rfl⟩ := hsource _ info hinfo
    rw [hinfo]
    by_cases hab : b = a
    · rw [hab]
    · exact absurd (TreeState.supersedes_iff.mp (hfirst b hb hkey hab)) (not_lt_of_ge hle)

/-- **Tables converge.** Two routers with empty tables that got the same announces, in
whatever order, however often and from whomever, have the same infos: of each key the announce
with the highest sequence number, then the lowest parent, then the lowest nonce. -/
theorem announces_converge {arrivals arrivals' : List (Key × Announce)}
    (hsame : ∀ a, a ∈ arrivals.map Prod.snd ↔ a ∈ arrivals'.map Prod.snd)
    (hdistinct : ∀ a ∈ arrivals.map Prod.snd, ∀ b ∈ arrivals.map Prod.snd, a.key = b.key →
      a.res.req.seq = b.res.req.seq → a.parent = b.parent → a.res.req.nonce = b.res.req.nonce →
      a = b)
    {w w' : World} (hw : w.router.tree.infos = ∅) (hw' : w'.router.tree.infos = ∅) :
    (∀ k, (w.deliver arrivals).router.tree.infos.lookup k =
      (w'.deliver arrivals').router.tree.infos.lookup k) ∧
    ∀ k info, (w.deliver arrivals).router.tree.infos.lookup k = some info ↔
      ∃ a ∈ arrivals.map Prod.snd, a.key = k ∧ a.info = info ∧
        ∀ b ∈ arrivals.map Prod.snd, b.key = k → b ≠ a →
          TreeState.supersedes a b.info = true := by
  have hunique : ∀ a ∈ arrivals.map Prod.snd, ∀ b ∈ arrivals.map Prod.snd, a.key = b.key →
      a.info.rank = b.info.rank → a = b := by
    intro a ha b hb hkey hrank
    obtain ⟨hseq, hparent, hnonce⟩ := Info.rank_eq_iff.mp hrank
    exact hdistinct a ha b hb hkey hseq hparent hnonce
  have hlatest : Latest (w.deliver arrivals).router.tree.infos (arrivals.map Prod.snd) := by
    have hnil : Latest w.router.tree.infos [] := hw ▸ Latest.nil
    simpa using hnil.deliver arrivals
  have hlatest' : Latest (w'.deliver arrivals').router.tree.infos (arrivals'.map Prod.snd) := by
    have hnil : Latest w'.router.tree.infos [] := hw' ▸ Latest.nil
    simpa using hnil.deliver arrivals'
  have hlookup := hlatest.lookup_iff hunique
  refine ⟨fun k => Option.ext fun info => ?_, hlookup⟩
  have hunique' := hunique
  simp only [hsame] at hunique'
  rw [hlookup, hlatest'.lookup_iff hunique']
  simp only [hsame]

/-! ## Corrections -/

/-- What an announce frame does: `handle_announce`, and its answer goes back on the link. -/
theorem handleFrame_announce {ann : Announce} (hcheck : ann.check = true) (conn : LinkId) (peer : Key)
    (w : World) :
    handleFrame conn peer ann.encode .announce w =
      (handleAnnounce peer ann >>= fun reply =>
        match reply with
        | some better => write conn .announce better.encode
        | none => pure ()) w := by
  rw [handleFrame, Announce.decodeExact_encode]
  show (if ann.check then _ else _ : RouterM Unit) w = _
  exact congrFun (if_pos hcheck) w

/-- Whether a frame is still on its way after `n` of them have arrived: first the announce
at `w`, then each answer at the router that sent what it answers. -/
def World.bounces : Nat → World → World → Announce → Bool
  | 0, _, _, _ => true
  | n + 1, w, w', ann =>
      if ann.check then
        match handleAnnounce w'.router.pubkey ann w with
        | (.ok (some reply), w₁) => bounces n w' w₁ reply
        | _ => false
      else false

theorem World.bounces_succ {w w' : World} {ann : Announce} (hcheck : ann.check = true) (n : Nat) :
    World.bounces (n + 1) w w' ann =
      match w.correction ann with
      | some reply => World.bounces n w' (handleAnnounce w'.router.pubkey ann w).2 reply
      | none => false := by
  obtain ⟨hreply, -⟩ := handleAnnounce_run w'.router.pubkey ann w
  rw [World.bounces, if_pos hcheck]
  generalize handleAnnounce w'.router.pubkey ann w = run at hreply
  obtain ⟨r, w₁⟩ := run
  cases hreply
  cases w.correction ann <;> rfl

/-- A router corrects an announce with what it has if that is different and not lower. -/
theorem World.correction_eq_some {w : World} {ann reply : Announce} :
    w.correction ann = some reply ↔ ∃ info, w.router.tree.infos.lookup ann.key = some info ∧
      ann.info.rank ≤ info.rank ∧ info ≠ ann.info ∧ reply = info.announce ann.key := by
  rw [World.correction, TreeState.adopts]
  cases hlookup : w.router.tree.infos.lookup ann.key with
  | none => simp
  | some info =>
    dsimp only
    split_ifs with hsup
    · refine ⟨nofun, ?_⟩
      rintro ⟨_, ⟨⟩, hle, -⟩
      exact absurd (TreeState.supersedes_iff.mp hsup) (not_lt_of_ge hle)
    · have hle := TreeState.not_supersedes_iff.mp (Bool.eq_false_of_not_eq_true hsup)
      by_cases heq : info = ann.info
      · subst heq
        simp
      · have hfilter : Option.filter (fun x => decide (x ≠ ann.info)) (some info) = some info := by
          simp [Option.filter, heq]
        rw [hfilter, Option.map_some]
        constructor
        · rintro ⟨⟩
          exact ⟨info, rfl, hle, heq, rfl⟩
        · rintro ⟨_, ⟨⟩, -, -, rfl⟩
          rfl

/-- A correction changes nothing in the table. -/
theorem World.infos_of_correction {w : World} {ann reply : Announce}
    (h : w.correction ann = some reply) (src : Key) :
    (handleAnnounce src ann w).2.router.tree.infos = w.router.tree.infos := by
  rw [(handleAnnounce_run src ann w).2.1]
  unfold World.correction at h
  split_ifs at h with hadopts
  rw [if_neg hadopts]

/-- The infos of a router were signed by their nodes and parents. -/
def World.Signed (w : World) : Prop :=
  ∀ k info, w.router.tree.infos.lookup k = some info → (info.announce k).check = true

/-- **Two different infos of one rank are passed back and forth.** -/
theorem World.bounces_of_tie {w w' : World} {ann : Announce} {info info' : Info}
    (hcheck : ann.check = true) (hw : w.Signed) (hw' : w'.Signed)
    (hinfo : w.router.tree.infos.lookup ann.key = some info)
    (hinfo' : w'.router.tree.infos.lookup ann.key = some info')
    (hle : ann.info.rank ≤ info.rank) (hne : info ≠ ann.info) (htie : info'.rank = info.rank)
    (hdiffer : info' ≠ info) (n : Nat) : World.bounces n w w' ann = true := by
  induction n generalizing w w' ann info info' with
  | zero => rfl
  | succ n ih =>
    have hcorrect := World.correction_eq_some.mpr ⟨info, hinfo, hle, hne, rfl⟩
    have hsame := World.infos_of_correction hcorrect w'.router.pubkey
    rw [World.bounces_succ hcheck, hcorrect]
    refine ih (hw _ _ hinfo) hw' ?_ hinfo' ?_ htie.ge hdiffer htie.symm hdiffer.symm
    · intro k i hlookup
      rw [hsame] at hlookup
      exact hw k i hlookup
    · rw [hsame]
      exact hinfo

/-- The only infos two routers would not agree on: different ones of one rank, after the
one has corrected an announce of the other. -/
def World.Tied (w w' : World) (ann : Announce) : Prop :=
  ∃ info info', w.router.tree.infos.lookup ann.key = some info ∧
    w'.router.tree.infos.lookup ann.key = some info' ∧
    TreeState.supersedes ann info = false ∧ info ≠ ann.info ∧
    info'.res.req.seq = info.res.req.seq ∧ info'.parent = info.parent ∧
    info'.res.req.nonce = info.res.req.nonce ∧ info' ≠ info

/-- Without a tie the third frame is the last. -/
theorem World.bounces_three {w w' : World} {ann : Announce} (hcheck : ann.check = true)
    (hw : w.Signed) (hw' : w'.Signed) (h : ¬ w.Tied w' ann) : World.bounces 3 w w' ann = false := by
  rw [World.bounces_succ hcheck]
  cases hfirst : w.correction ann with
  | none => rfl
  | some reply =>
    obtain ⟨info, hinfo, hle, hne, rfl⟩ := World.correction_eq_some.mp hfirst
    have hsame := World.infos_of_correction hfirst w'.router.pubkey
    obtain ⟨w₁, hw₁⟩ : ∃ w₁, (handleAnnounce w'.router.pubkey ann w).2 = w₁ := ⟨_, rfl⟩
    rw [hw₁] at hsame
    show World.bounces 2 w' _ _ = false
    rw [hw₁, World.bounces_succ (hw _ _ hinfo)]
    cases hsecond : w'.correction (info.announce ann.key) with
    | none => rfl
    | some reply' =>
      obtain ⟨info', hinfo', hle', hne', rfl⟩ := World.correction_eq_some.mp hsecond
      change w'.router.tree.infos.lookup ann.key = some info' at hinfo'
      have hsigned := hw' _ _ hinfo'
      show World.bounces 1 w₁ _ (info'.announce ann.key) = false
      rw [World.bounces_succ hsigned]
      cases hthird : w₁.correction (info'.announce ann.key) with
      | none => rfl
      | some reply'' =>
        -- The first router has what it sent, so a third correction means the ranks are equal.
        obtain ⟨info'', hinfo'', hle'', -⟩ := World.correction_eq_some.mp hthird
        rw [hsame] at hinfo''
        cases hinfo.symm.trans hinfo''
        obtain ⟨hseq, hparent, hnonce⟩ := Info.rank_eq_iff.mp (le_antisymm hle'' hle')
        exact absurd ⟨info, info', hinfo, hinfo', TreeState.not_supersedes_iff.mpr hle, hne, hseq,
          hparent, hnonce, hne'⟩ h

/-- **Corrections are accepted and end, unless two different infos of one rank meet.** -/
theorem corrections_end_iff {w w' : World} {ann : Announce} (hcheck : ann.check = true)
    (hw : w.Signed) (hw' : w'.Signed) :
    ((∀ reply w₁, handleAnnounce w'.router.pubkey ann w = (.ok (some reply), w₁) →
        w'.router.tree.infos.lookup ann.key = some ann.info →
        w'.router.tree.adopts reply = true) ∧
      ∃ n, World.bounces n w w' ann = false) ↔ ¬ w.Tied w' ann := by
  constructor
  · rintro ⟨-, n, hend⟩ ⟨info, info', hinfo, hinfo', hsup, hne, hseq, hparent, hnonce, hdiffer⟩
    have hforever := World.bounces_of_tie hcheck hw hw' hinfo hinfo'
      (TreeState.not_supersedes_iff.mp hsup) hne (Info.rank_eq_iff.mpr ⟨hseq, hparent, hnonce⟩)
      hdiffer n
    rw [hforever] at hend
    cases hend
  · intro htied
    refine ⟨fun reply w₁ hrun hstored => ?_, 3, World.bounces_three hcheck hw hw' htied⟩
    have hreply := (handleAnnounce_run w'.router.pubkey ann w).1
    rw [hrun] at hreply
    obtain ⟨info, hinfo, hle, hne, rfl⟩ := World.correction_eq_some.mp (Except.ok.inj hreply).symm
    have hadopt : TreeState.supersedes (info.announce ann.key) ann.info = true := by
      refine TreeState.supersedes_iff.mpr (lt_of_le_of_ne hle fun heq => htied ?_)
      obtain ⟨hseq, hparent, hnonce⟩ := Info.rank_eq_iff.mp heq
      exact ⟨info, ann.info, hinfo, hstored, TreeState.not_supersedes_iff.mpr hle, hne, hseq, hparent,
        hnonce, hne.symm⟩
    rw [TreeState.adopts_of_lookup (info.announce ann.key) hstored]
    exact hadopt

end

/-! ## A node with two ports -/

section

attribute [local instance] Sample.lenient

/-- The node with key 9 below the one with key 3, which gave it a port. -/
def portAnnounce (seq port : UInt64) : Announce where
  key := smallKey 9
  parent := smallKey 3
  res := SigRes.seal ⟨seq, 0⟩ port (smallKey 9) (smallKey 3) (smallKey 3)
  sig := Crypto.sign (smallKey 9) []

/-- A router that has heard that from a neighbour. -/
def hearer (me : UInt8) (seq port : UInt64) : World :=
  (World.init (smallKey me) (.even 1)).run
    [.connect (smallKey 7) 0 true, .frame 0 .announce (portAnnounce seq port).encode]

theorem hearer_entries :
    (hearer 1 1 5).router.tree.infos.entries = [⟨smallKey 9, (portAnnounce 1 5).info⟩] ∧
    (hearer 2 1 6).router.tree.infos.entries = [⟨smallKey 9, (portAnnounce 1 6).info⟩] ∧
    (hearer 2 0 6).router.tree.infos.entries = [⟨smallKey 9, (portAnnounce 0 6).info⟩] := by
  decide +kernel

theorem portAnnounce_check :
    (portAnnounce 1 5).check = true ∧ (portAnnounce 1 6).check = true ∧
      (portAnnounce 0 6).check = true := by decide +kernel

theorem lookup_of_entries {w : World} (ann : Announce)
    (h : w.router.tree.infos.entries = [⟨ann.key, ann.info⟩]) :
    w.router.tree.infos.lookup ann.key = some ann.info := by
  rw [AList.lookup, h]
  exact List.dlookup_cons_eq _ _ _

theorem signed_of_entries {w : World} (ann : Announce)
    (h : w.router.tree.infos.entries = [⟨ann.key, ann.info⟩]) (hcheck : ann.check = true) :
    w.Signed := by
  intro k info hlookup
  have hmem : (⟨k, info⟩ : Sigma fun _ : Key => Info) ∈ w.router.tree.infos.entries :=
    (List.mem_dlookup_iff w.router.tree.infos.nodupKeys).mp hlookup
  rw [h, List.mem_singleton] at hmem
  cases hmem
  exact hcheck

/-- **Two routers that heard different ports of one node correct each other forever.** Neither
takes the other's announce for a better one. -/
theorem ties_bounce_forever :
    (hearer 1 1 5).Signed ∧ (hearer 2 1 6).Signed ∧ (portAnnounce 1 6).check = true ∧
      (hearer 2 1 6).router.tree.infos.lookup (portAnnounce 1 6).key =
        some (portAnnounce 1 6).info ∧
      (hearer 1 1 5).correction (portAnnounce 1 6) = some (portAnnounce 1 5) ∧
      (hearer 2 1 6).router.tree.adopts (portAnnounce 1 5) = false ∧
      ∀ n, World.bounces n (hearer 1 1 5) (hearer 2 1 6) (portAnnounce 1 6) = true := by
  obtain ⟨hfive, hsix, -⟩ := hearer_entries
  obtain ⟨hcheck, hcheck', -⟩ := portAnnounce_check
  have hsigned := signed_of_entries (portAnnounce 1 5) hfive hcheck
  have hsigned' := signed_of_entries (portAnnounce 1 6) hsix hcheck'
  have hlookup := lookup_of_entries (portAnnounce 1 5) hfive
  have hlookup' := lookup_of_entries (portAnnounce 1 6) hsix
  have hne : (portAnnounce 1 5).info ≠ (portAnnounce 1 6).info := by decide +kernel
  refine ⟨hsigned, hsigned', hcheck', hlookup', ?_, ?_, fun n => ?_⟩
  · exact World.correction_eq_some.mpr ⟨_, hlookup, le_rfl, hne, rfl⟩
  · rw [TreeState.adopts_of_lookup (portAnnounce 1 5) hlookup']
    decide +kernel
  · exact World.bounces_of_tie hcheck' hsigned hsigned' hlookup hlookup' le_rfl hne rfl hne.symm n

/-- A correction with a higher sequence number is adopted. -/
theorem corrections_end_older :
    ∃ n, World.bounces n (hearer 1 1 5) (hearer 2 0 6) (portAnnounce 0 6) = false := by
  obtain ⟨hfive, -, hsix⟩ := hearer_entries
  obtain ⟨hcheck, -, hcheck'⟩ := portAnnounce_check
  refine ((corrections_end_iff hcheck' (signed_of_entries (portAnnounce 1 5) hfive hcheck)
    (signed_of_entries (portAnnounce 0 6) hsix hcheck')).mpr ?_).2
  rintro ⟨info, info', hinfo, hinfo', -, -, hseq, -⟩
  cases (lookup_of_entries (portAnnounce 1 5) hfive).symm.trans hinfo
  cases (lookup_of_entries (portAnnounce 0 6) hsix).symm.trans hinfo'
  exact absurd hseq (by decide)

/-- Two routers that hear of one node twice, in either order. -/
theorem announces_converge_twice :
    ((World.init (smallKey 1) (.even 1)).deliver
        [(smallKey 7, portAnnounce 0 6), (smallKey 7, portAnnounce 1 5)]
        ).router.tree.infos.lookup (smallKey 9) =
      ((World.init (smallKey 2) (.even 1)).deliver
        [(smallKey 8, portAnnounce 1 5), (smallKey 7, portAnnounce 0 6),
          (smallKey 7, portAnnounce 1 5)]).router.tree.infos.lookup (smallKey 9) :=
  (announces_converge (by simp [or_comm]) (by
    simp only [List.map_cons, List.map_nil, List.mem_cons, List.not_mem_nil, or_false]
    rintro a (rfl | rfl) b (rfl | rfl) - hseq - -
    · rfl
    · exact absurd hseq (by decide)
    · exact absurd hseq (by decide)
    · rfl) rfl rfl).1 (smallKey 9)

end

end Roots

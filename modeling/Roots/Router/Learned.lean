import Roots.Router.Broken

/-!
# Roots.Router.Learned

The paths a router has learned. Frames come from anyone, so an entry of the path table is
only worth what was checked before it was written. **Every entry was signed by its key, was
asked for, and is only ever replaced by a newer one** (`paths_learned`).

The table is written by notifies, by broken-path reports, by inbound traffic, by expiry and by the
answers of the node to its own lookups. What an action does to it is read off the steps it is made
of, in a context that says from which notifies it may learn (the one its frame brings, and the
node's own) and that nothing is forgotten. Only `maintain` forgets, at one point of its own.
-/

namespace Roots

open Prog RouterM
open Relation (ReflTransGen)

section

variable [Crypto] {S : Scope} {w w' : World}

/-! ## What a step does to the table -/

/-- Every entry holds a sequence number and a path that its key signed. -/
def World.Authentic (w : World) : Prop :=
  ∀ k e, w.router.path.entries.lookup k = some e →
    ∃ sig, NotifyInfo.check ⟨e.seq, e.path, sig⟩ k = true

/-- What a step leaves in the table was there before with the same path and number, or was
learned from a notify that was news. -/
theorem Step.entry_of_lookup (h : Step S w w') {k : Key} {e' : PathEntry}
    (he' : w'.router.path.entries.lookup k = some e') :
    (∃ e, w.router.path.entries.lookup k = some e ∧ e.path = e'.path ∧ e.seq = e'.seq) ∨
      ∃ n : PathNotify, S.learns n ∧ w.router.path.isNews n = true ∧ n.source = k ∧
        n.info.path = e'.path ∧ n.info.seq = e'.seq := by
  cases h with
  | learn n t hnews hlearns =>
    change (w.router.path.entries.insert n.source _).lookup k = some e' at he'
    rw [Assoc.lookup_insert_ite] at he'
    split at he'
    · rename_i heq
      cases he'
      exact .inr ⟨n, hlearns, hnews, heq.symm, rfl, rfl⟩
    · exact .inl ⟨e', he', rfl, rfl⟩
  | entries m hm => exact .inl (hm k e' he')
  | _ => exact .inl ⟨e', he', rfl, rfl⟩

theorem Step.authentic (h : Step S w w') (hw : w.Authentic) : w'.Authentic := by
  intro k e' he'
  rcases h.entry_of_lookup he' with ⟨e, he, hpath, hseq⟩ | ⟨n, -, hnews, rfl, hpath, hseq⟩
  · rw [← hpath, ← hseq]
    exact hw k e he
  · rw [← hpath, ← hseq]
    exact ⟨n.info.sig, (Bool.and_eq_true_iff.mp hnews).2⟩

/-- A notify from a key without an entry is news only if a rumor waits for the key. -/
theorem PathState.mem_rumors_of_isNews {p : PathState} {n : PathNotify}
    (hnews : p.isNews n = true) (hnone : n.source ∉ p.entries) : xkey n.source ∈ p.rumors := by
  rw [isNews, AList.lookup_eq_none.mpr hnone] at hnews
  exact of_decide_eq_true (Bool.and_eq_true_iff.mp hnews).1

/-- A notify from a key with an entry is news only if its number is larger. -/
theorem PathState.seq_lt_of_isNews {p : PathState} {n : PathNotify} {e : PathEntry}
    (hnews : p.isNews n = true) (he : p.entries.lookup n.source = some e) :
    e.seq < n.info.seq := by
  rw [isNews, he] at hnews
  exact (of_decide_eq_true (Bool.and_eq_true_iff.mp hnews).1).1

/-! ## Signatures -/

theorem World.authentic_init (seed : Key) (env : Env) : (World.init seed env).Authentic := by
  intro k e he
  cases he

theorem World.Authentic.of_walk (h : ReflTransGen (Step S) w w') (hw : w.Authentic) :
    w'.Authentic := by
  induction h with
  | refl => exact hw
  | tail _ hstep ih => exact hstep.authentic ih

theorem World.Reachable.walk_act (hw : w.Reachable) (a : Action) :
    ReflTransGen (Step .free) w (w.act a) :=
  a.act_walk Scope.free_open hw.inv (w.permits_free a)

theorem World.Reachable.authentic (hw : w.Reachable) : w.Authentic := by
  obtain ⟨seed, env, actions, rfl⟩ := hw
  induction actions using List.reverseRecOn with
  | nil => exact World.authentic_init seed env
  | append_singleton actions a ih =>
    rw [World.run_append]
    exact ih.of_walk (World.Reachable.walk_act ⟨seed, env, actions, rfl⟩ a)

/-! ## Entries that stay -/

/-- What happens to the table between two states where nothing is forgotten: entries stay, an
entry is created only for a key that a rumor waits for, and its path changes only with a larger
sequence number. A rumor for a key of another node was there from the start; one for this node's
own key may be opened on the way, as the node answers its own lookups. -/
structure Learns (w w' : World) : Prop where
  kept : ∀ k ∈ w.router.path.entries, k ∈ w'.router.path.entries
  created : ∀ k, k ∉ w.router.path.entries → k ∈ w'.router.path.entries →
    xkey k ∈ w'.router.path.rumors ∧ (k ≠ w.router.pubkey → xkey k ∈ w.router.path.rumors)
  changed : ∀ k e e', w.router.path.entries.lookup k = some e →
    w'.router.path.entries.lookup k = some e' →
    e.seq ≤ e'.seq ∧ (e'.path ≠ e.path → e.seq < e'.seq)

/-- The context in which nothing is forgotten, and the node learns from its own notifies and from
those with `P`. -/
def Scope.learning (self : Key) (P : PathNotify → Prop) : Scope :=
  { Scope.free with
    flush := fun k => k = self
    forgets := False
    learns := fun n => n.source = self ∨ P n
    learns_own := .inl }

variable {self : Key} {P : PathNotify → Prop}

theorem Step.kept (h : Step (.learning self P) w w') :
    (∀ k ∈ w.router.path.entries, k ∈ w'.router.path.entries) ∧
      ∀ x ∈ w.router.path.rumors, x ∈ w'.router.path.rumors := by
  cases h with
  | learn n t =>
    exact ⟨fun k hk => (AList.mem_insert _).mpr (.inr hk), fun _ hx => hx⟩
  | entries m hm hkept => exact ⟨hkept.resolve_left id, fun _ hx => hx⟩
  | rumors m hm hkept => exact ⟨fun _ hk => hk, hkept.resolve_left id⟩
  | hold a b m hpass hm hkept => exact ⟨fun _ hk => hk, hkept⟩
  | stash dest b onApp m hm hkept => exact ⟨fun _ hk => hk, hkept⟩
  | release source p isApp => exact ⟨fun _ hk => hk, fun _ hx => Assoc.mem_modify.mpr hx⟩
  | _ => exact ⟨fun _ hk => hk, fun _ hx => hx⟩

/-- A walk on which nothing is forgotten, from a state in which every notify with `P` is news. -/
theorem Learns.of_walk (hnews : ∀ n, P n → w.router.path.isNews n = true)
    (hself : w.router.pubkey = self) (h : ReflTransGen (Step (.learning self P)) w w') :
    Learns w w' ∧ ∀ x ∈ w.router.path.rumors, x ∈ w'.router.path.rumors := by
  induction h with
  | refl =>
    refine ⟨⟨fun _ hk => hk, fun k hnone hk => absurd hk hnone, fun k e e' he he' => ?_⟩,
      fun _ hx => hx⟩
    cases he.symm.trans he'
    exact ⟨UInt64.le_refl _, fun hne => absurd rfl hne⟩
  | @tail u v _ hstep ih =>
    obtain ⟨ih, hrumors⟩ := ih
    obtain ⟨hentries, hmore⟩ := hstep.kept
    refine ⟨⟨fun k hk => hentries k (ih.kept k hk), fun k hnone hk => ?_, fun k e e' he he' => ?_⟩,
      fun x hx => hmore x (hrumors x hx)⟩
    · by_cases hthere : k ∈ u.router.path.entries
      · obtain ⟨hnow, hbefore⟩ := ih.created k hnone hthere
        exact ⟨hmore _ hnow, hbefore⟩
      · obtain ⟨e', he'⟩ := Assoc.mem_iff_lookup.mp hk
        rcases hstep.entry_of_lookup he' with ⟨e, he, -⟩ | ⟨n, hlearns, hnew, rfl, -⟩
        · exact absurd (Assoc.mem_iff_lookup.mpr ⟨e, he⟩) hthere
        · refine ⟨hmore _ (PathState.mem_rumors_of_isNews hnew hthere), fun hother => ?_⟩
          rcases hlearns with hown | hP
          · exact absurd (hown.trans hself.symm) hother
          · exact PathState.mem_rumors_of_isNews (hnews n hP) hnone
    · obtain ⟨eᵤ, heᵤ⟩ := Assoc.mem_iff_lookup.mp (ih.kept k (Assoc.mem_iff_lookup.mpr ⟨e, he⟩))
      obtain ⟨hle, hlt⟩ := ih.changed k e eᵤ he heᵤ
      rcases hstep.entry_of_lookup he' with ⟨e₀, he₀, hpath, hseq⟩ | ⟨n, -, hnew, rfl, -, hseq⟩
      · cases heᵤ.symm.trans he₀
        rw [← hpath, ← hseq]
        exact ⟨hle, hlt⟩
      · have hgrows : eᵤ.seq < e'.seq := hseq ▸ PathState.seq_lt_of_isNews hnew heᵤ
        exact ⟨UInt64.le_trans hle (UInt64.le_of_lt hgrows),
          fun _ => UInt64.lt_of_le_of_lt hle hgrows⟩

/-! ## Actions -/

/-- The notify that an action brings, if it is taken in. -/
def World.Brings (w : World) (a : Action) (n : PathNotify) : Prop :=
  ∃ conn payload, a = .frame conn .pathNotify payload ∧ PathNotify.decodeExact payload = .ok n ∧
    w.Accepts n

theorem Inv.learning (hw : Inv .free w) (P : PathNotify → Prop) :
    Inv (.learning w.router.pubkey P) w :=
  { hw with own := rfl, slots := fun _ _ _ _ => trivial }

theorem World.permits_learning (w : World) (a : Action) :
    w.Permits (.learning self (w.Brings a)) False a := by
  cases a with
  | frame conn ftype payload =>
    refine ⟨?_, fun _ _ _ _ _ _ => trivial, False.elim⟩
    rintro rfl n hn haccepts
    exact .inr ⟨conn, payload, rfl, hn, haccepts⟩
  | sendOrResolve => exact fun _ _ _ => trivial
  | sendOutbox => exact ⟨False.elim, fun _ _ => trivial⟩
  | request | setNodeinfo => exact False.elim
  | _ => trivial

omit [Crypto] in
theorem Scope.learning_fits {a : Action} (ha : a ≠ .maintain) :
    (Scope.learning self P).Fits a := by
  cases a with
  | maintain => exact absurd rfl ha
  | frame conn ftype payload =>
    cases ftype with
    | announce => exact ⟨trivial, trivial, trivial⟩
    | traffic => exact ⟨trivial, trivial⟩
    | _ => trivial
  | connect => exact ⟨trivial, trivial, trivial, trivial⟩
  | _ => trivial

theorem learns_act (hw : Inv .free w) {a : Action} (ha : a ≠ .maintain) : Learns w (w.act a) := by
  have hobeys := a.body_obeys (S := .learning w.router.pubkey (w.Brings a)) False.elim
    (Scope.learning_fits ha) (w.permits_learning a)
  refine (Learns.of_walk ?_ rfl (hobeys.walk (hw.learning _))).1
  rintro n ⟨conn, payload, -, -, haccepts⟩
  exact haccepts.news

/-! ## The maintenance tick -/

/-- `maintain` up to and including the expiry of paths and rumors. -/
def expiring : RouterM Unit := do
  expireTree
  fix
  sendAnnounces
  bloomMaintenance
  expireEphemeral

/-- What `maintain` does afterwards: the lookups that are due again. -/
def retrying : RouterM Unit := do
  let r ← router
  let xs ← iterate r.path.rumors.keys
  forEach (xs.filterMap (unresolved r.path)) (rumorLookup netSend)

theorem maintain_eq_expiring : maintain = (expiring >>= fun _ => retrying) := by
  simp only [maintain, tidy, sweep, expiring, retrying, Prog.bind_assoc]

/-- The state after the expiry of paths and rumors, or at the error before it. -/
def World.swept (w : World) : World := (expiring w).2

/-- Every entry is one that was there, with the same path and number. -/
def Forgets (w w' : World) : Prop :=
  ∀ k e', w'.router.path.entries.lookup k = some e' →
    ∃ e, w.router.path.entries.lookup k = some e ∧ e.path = e'.path ∧ e.seq = e'.seq

theorem forgets_swept (w : World) : Forgets w w.swept := by
  have hsame : ∀ {v : World}, (routed w.router.path w.events).inv v → Forgets w v :=
    fun hv k e' he' => ⟨e', hv.1 ▸ he', rfl, rfl⟩
  have hw : (routed w.router.path w.events).inv w := ⟨rfl, .refl _⟩
  refine snd_bind (hsame ((expireTree_beside w).inv hw)) fun _ v₁ h₁ _ => ?_
  have hv₁ := (expireTree_beside w).inv_of_eq hw h₁
  refine snd_bind (hsame ((fix_beside v₁).inv hv₁)) fun _ v₂ h₂ _ => ?_
  have hv₂ := (fix_beside v₁).inv_of_eq hv₁ h₂
  refine snd_bind (hsame ((sendAnnounces_beside v₂).inv hv₂)) fun _ v₃ h₃ _ => ?_
  have hv₃ := (sendAnnounces_beside v₂).inv_of_eq hv₂ h₃
  refine snd_bind (hsame ((bloomMaintenance_beside v₃).inv hv₃)) fun _ v₄ h₄ _ => ?_
  have hv₄ := (bloomMaintenance_beside v₃).inv_of_eq hv₃ h₄
  intro k e' he'
  have hretain : (expireEphemeral v₄).2.router.path.entries =
      v₄.router.path.entries.retain fun _ e => v₄.env.now v₄.tick < e.deadline := rfl
  rw [hretain, Assoc.lookup_retain, hv₄.1] at he'
  exact ⟨e', (Option.filter_eq_some_iff.mp he').1, rfl, rfl⟩

theorem learns_maintain (hw : Inv .free w) : Learns w.swept (w.act .maintain) := by
  show Learns w.swept (maintain w).2
  have hexpiring : (rules Scope.free False).Allows expiring :=
    .bind (expireTree_allows trivial) fun _ => .bind (fix_allows trivial trivial trivial) fun _ =>
      .bind (sendAnnounces_allows trivial) fun _ => .bind (bloomMaintenance_allows trivial) fun _ =>
        expireEphemeral_allows trivial trivial
  have hinv : Inv .free w.swept := (hexpiring w).inv hw
  have hretrying : (rules (.learning w.swept.router.pubkey fun _ => False) False).Allows retrying :=
    .gets_bind fun _ => .bind (draw_allows _) fun _ => .forEach fun k _ =>
      rumorLookup_allows (sends_netSend False.elim) False.elim k
  have hwalk := (hretrying w.swept).walk (hinv.learning _)
  rw [maintain_eq_expiring, run_bind]
  obtain ⟨r, v, hrun⟩ : ∃ r v, expiring w = (r, v) := ⟨_, _, rfl⟩
  have hv : w.swept = v := congrArg Prod.snd hrun
  rw [hv] at hwalk ⊢
  rw [hrun]
  cases r with
  | error e => exact (Learns.of_walk (P := fun _ => False) (fun n hn => hn.elim) rfl .refl).1
  | ok => exact (Learns.of_walk (fun n hn => hn.elim) rfl hwalk).1

/-! ## A frame with a notify -/

/-- Sending what waited for a source with a path leaves the entries alone. -/
theorem flush_entries {source : Key} (hpath : (w.router.path.workingPath source).isSome) :
    (flush netSend source w).2.router.path.entries = w.router.path.entries := by
  cases hheld : w.router.path.heldFor source with
  | none =>
    rw [flush, router, Prog.gets_bind, hheld]
    rfl
  | some slot =>
    obtain ⟨payload, isApp⟩ := slot
    rw [flush_of_held hheld]
    have hpath' : ((w.router.path.takeHeld source).workingPath source).isSome := hpath
    have hrouted : (routed (w.router.path.takeHeld source)
        (w.release source payload isApp).events).Allows
        (if isApp then sessionSend netSend source payload else netSend source payload.bytes) :=
      .ite (sessionSend_routed hpath' payload) (netSend_routed hpath' payload.bytes)
    have hsame := (hrouted (w.release source payload isApp)).inv ⟨rfl, .refl _⟩
    have hentries : (w.router.path.takeHeld source).entries = w.router.path.entries := rfl
    exact (congrArg PathState.entries hsame.1).trans hentries

/-- A notify creates an entry for its source only, and only if it is news. -/
theorem acceptNotify_created {n : PathNotify} {k : Key}
    (hk : k ∈ (acceptNotify netSend n w).2.router.path.entries) :
    k ∈ w.router.path.entries ∨ w.router.path.isNews n = true ∧ n.source = k := by
  by_cases hnews : w.router.path.isNews n = true
  · rw [acceptNotify_of_news hnews] at hk
    have hknown := PathState.workingPath_learn w.router.path n (w.env.now w.tick)
    rw [flush_entries (w := w.learned n) hknown] at hk
    rcases (AList.mem_insert _).mp hk with heq | hmem
    · exact .inr ⟨hnews, heq.symm⟩
    · exact .inl hmem
  · rw [acceptNotify_stale (Bool.eq_false_iff.mpr hnews)] at hk
    exact .inl hk

theorem handleNotify_created {n : PathNotify} {k : Key}
    (hk : k ∈ (handleNotify netSend n w).2.router.path.entries) :
    k ∈ w.router.path.entries ∨ w.router.path.isNews n = true ∧ n.source = k := by
  rw [handleNotify, greedy, Prog.gets_bind] at hk
  obtain ⟨⟨next, watermark⟩, hnext⟩ : ∃ hop, w.router.tree.greedyNext w.links w.router.pubkey n.path
    n.watermark = hop := ⟨_, rfl⟩
  rw [hnext] at hk
  cases next with
  | some id =>
    have hwrites : (routed w.router.path w.events).Allows
        (writeVia id .pathNotify { n with watermark }.encode) :=
      writeVia_allows (Writes.wrote (by decide) (by decide)) _ _
    have hsame := (hwrites w).inv ⟨rfl, .refl _⟩
    exact .inl (congrArg PathState.entries hsame.1 ▸ hk)
  | none =>
    dsimp only at hk
    rw [router, Prog.gets_bind] at hk
    split at hk
    · exact .inl hk
    · exact acceptNotify_created hk

/-- **A frame with a notify creates an entry only for a key that a rumor waits for**, whosever key
it is. -/
theorem notify_created {conn : LinkId} {payload : Bytes} {k : Key}
    (hnone : k ∉ w.router.path.entries) :
    k ∈ (w.act (.frame conn .pathNotify payload)).router.path.entries →
      xkey k ∈ w.router.path.rumors := by
  have hstays : k ∈ w.router.path.entries → xkey k ∈ w.router.path.rumors := fun hk =>
    absurd hk hnone
  show k ∈ (dispatchFrame conn .pathNotify payload w).2.router.path.entries → _
  rw [dispatchFrame, links, Prog.gets_bind]
  cases w.links.peerOf conn with
  | none => exact hstays
  | some peer =>
    refine snd_bind (P := fun v : World => k ∈ v.router.path.entries → xkey k ∈ w.router.path.rumors)
      ?_ fun _ v hv hcreated => ?_
    · cases hdecode : PathNotify.decodeExact payload with
      | error e =>
        cases PathNotify.decodeExact_refuses payload e hdecode
        rw [handleFrame, hdecode]
        exact hstays
      | ok n =>
        rw [handleFrame, hdecode]
        show k ∈ ((if n.check then handleNotify netSend n else pure () :
          RouterM Unit) w).2.router.path.entries → _
        split
        · intro hk
          rcases handleNotify_created hk with hthere | ⟨hnews, rfl⟩
          · exact hstays hthere
          · exact PathState.mem_rumors_of_isNews hnews hnone
        · exact hstays
    · have hidle : (routed v.router.path v.events).Allows (keepaliveIfIdle conn) :=
        keepaliveIfIdle_allows conn
      have hsame := (hidle v).inv ⟨rfl, .refl _⟩
      show k ∈ (keepaliveIfIdle conn v).2.router.path.entries → _
      rw [hsame.1]
      exact hcreated

/-- **Learned paths are signed by their key, asked for, and replaced only by newer ones.** In every
reachable state every entry is signed; an action other than `maintain` drops none, creates one only
for a key that a rumor waits for and changes a path only with a larger number. `maintain` first
forgets and then does no more than that. -/
theorem paths_learned (hw : w.Reachable) :
    w.Authentic ∧ (∀ a, a ≠ .maintain → Learns w (w.act a)) ∧
      (Forgets w w.swept ∧ Learns w.swept (w.act .maintain)) ∧
      ∀ conn payload k, k ∉ w.router.path.entries →
        k ∈ (w.act (.frame conn .pathNotify payload)).router.path.entries →
        xkey k ∈ w.router.path.rumors :=
  ⟨hw.authentic, fun _ ha => learns_act hw.inv ha, ⟨forgets_swept w, learns_maintain hw.inv⟩,
    fun _ _ _ => notify_created⟩

end

section

attribute [local instance] Sample.lenient

/-- The owner's notify creates an entry for it, which is authentic; a rumor waited for it. -/
theorem paths_learned_answered :
    owner ∉ waiting.router.path.entries ∧
      owner ∈ (waiting.act (.frame 0 .pathNotify (notifyFrom owner).encode)).router.path.entries ∧
      xkey owner ∈ waiting.router.path.rumors ∧
      (waiting.act (.frame 0 .pathNotify (notifyFrom owner).encode)).Authentic := by
  obtain ⟨hlive, haccepts, hheld⟩ := waiting_accepts (rfl : xkey owner = xkey owner) (by decide +kernel)
  have hpath := (frame_releases hlive (decode_notifyFrom owner) haccepts.arrives haccepts.news
    hheld).path
  have hnone : owner ∉ waiting.router.path.entries := by decide +kernel
  have hmem : owner ∈
      (waiting.act (.frame 0 .pathNotify (notifyFrom owner).encode)).router.path.entries := by
    rw [hpath]
    exact (AList.mem_insert _).mpr (.inl rfl)
  refine ⟨hnone, hmem, ?_, (paths_learned (waiting_reachable.act _)).1⟩
  exact (paths_learned waiting_reachable).2.2.2 0 _ owner hnone hmem

end

end Roots

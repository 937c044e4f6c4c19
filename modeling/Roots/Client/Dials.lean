import Roots.Client.Links
import Roots.Lib.Counter

/-!
# Roots.Client.Dials

The dials of the link manager. `start_due` gives each dial it starts the next token and
leaves the token in the row; a result that comes back with a token is the business of the row
that still has it, if any. So **a row has at most one dial under way, and the result of a
dial whose row was removed changes nothing**, also when a row of the same name was added
since (`Ledger.one_row_one_dial`).

A token is a `u64` and `next_token` wraps: that no token is issued twice holds of the first
`2 ^ 64` dials and fails of the next one (`token_issued_twice`).

Nothing in the table says which row a dial was started for once the row is gone, so the
history is kept beside it (`Ledger`). No operation takes a row out and puts one in, so a row
is gone as soon as its name is.
-/

namespace Roots.Client

/-! ## Histories -/

/-- A call of the link manager that may change the table. -/
inductive Links.Op where
  | add (uri sintf : Text) (kind : LinkKind) (now : Instant)
  | accept (uri : Text) (id : LinkId) (peer : Key) (now : Instant)
  | remove (uri sintf : Text)
  | startDue (now : Instant)
  | markLive (token : UInt64) (id : LinkId) (peer : Key) (now : Instant)
  | markFailed (token : UInt64) (err : Text) (now : Instant)
  | noteLiveness (links : LinkSet) (clock : Nat → Instant)

/-- A dial that was started: its token, the name of its row, whether its result came, and
whether the row was removed since. -/
structure Dial where
  token : UInt64
  info : Info
  reported : Bool
  removed : Bool
deriving DecidableEq

/-- The dial is under way and its row is still there. -/
def Dial.Outstanding (d : Dial) : Prop := d.reported = false ∧ d.removed = false

instance (d : Dial) : Decidable d.Outstanding := inferInstanceAs (Decidable (_ ∧ _))

namespace Links

def infos (ls : Links) : List Info := ls.entries.map Entry.info

/-- The dials the loop of `start_due` starts, in order. -/
def startedFrom (now : Instant) : UInt64 → List Entry → List Dial
  | _, [] => []
  | token, e :: entries =>
      if e.waits now then ⟨token, e.info, false, false⟩ :: startedFrom now (token + 1) entries
      else startedFrom now token entries

namespace Op

/-- The table after the call. -/
def on [UriParser] (ls : Links) : Op → Links
  | add uri sintf kind now => (ls.add uri sintf kind now).2
  | accept uri id peer now => ls.accept uri id peer now
  | remove uri sintf => (ls.remove uri sintf).toOption.getD ls
  | startDue now => ls.startDue now
  | markLive token id peer now => (ls.markLive token id peer now).2
  | markFailed token err now => ls.markFailed token err now
  | noteLiveness links clock => ls.noteLiveness links clock

/-- The dials the call starts. -/
def starts (ls : Links) : Op → List Dial
  | startDue now => startedFrom now ls.nextToken ls.entries
  | _ => []

/-- The token whose dial the call is the result of. -/
def reports : Op → Option UInt64
  | markLive token .. | markFailed token .. => some token
  | _ => none

end Op

end Links

/-- What a call changes about a dial that was started before it. -/
def Dial.after (op : Links.Op) (ls : Links) (d : Dial) : Dial :=
  { d with
    reported := d.reported ∨ op.reports = some d.token
    removed := d.removed ∨ d.info ∉ ls.infos }

/-- The table, and every dial that was ever started. -/
structure Ledger where
  links : Links
  dials : List Dial

namespace Ledger

section

variable [UriParser]

def step (l : Ledger) (op : Links.Op) : Ledger where
  links := op.on l.links
  dials := l.dials.map (Dial.after op (op.on l.links)) ++ op.starts l.links

/-- The calls, from a new table on. -/
def run (ops : List Links.Op) : Ledger := ops.foldl step ⟨.empty, []⟩

end

/-- The dials that are under way for a row. -/
def outstanding (l : Ledger) (e : Entry) : List Dial :=
  l.dials.filter fun d => d.info = e.info ∧ d.Outstanding

end Ledger

/-! ## One round of dials -/

namespace Links

variable {now : Instant} {token : UInt64} {entries : List Entry}

/-- Rows that have a dial under way are passed over. -/
theorem not_waits_of_dialing {e : Entry} (h : e.dialing = some token) : e.waits now = false := by
  simp [Entry.waits, h]

theorem mem_startFrom {e : Entry} (he : e ∈ (startFrom now token entries).1) :
    e ∈ entries ∨
      ∃ d ∈ startedFrom now token entries, d.info = e.info ∧ e.dialing = some d.token := by
  induction entries generalizing token with
  | nil => exact .inl he
  | cons e₀ entries ih =>
    rw [startFrom] at he
    rw [startedFrom]
    by_cases hwaits : e₀.waits now
    · rw [if_pos hwaits] at he ⊢
      rcases List.mem_cons.mp he with heq | he
      · rw [heq]
        exact .inr ⟨_, List.mem_cons_self .., rfl, rfl⟩
      · rcases ih he with hold | ⟨d, hd, hrow⟩
        · exact .inl (List.mem_cons_of_mem _ hold)
        · exact .inr ⟨d, List.mem_cons_of_mem _ hd, hrow⟩
    · rw [if_neg hwaits] at he ⊢
      rcases List.mem_cons.mp he with heq | he
      · exact .inl (heq ▸ List.mem_cons_self ..)
      · exact (ih he).imp_left (List.mem_cons_of_mem _)

theorem mem_startFrom_of_dialing {e : Entry} {t : UInt64} (he : e ∈ entries)
    (ht : e.dialing = some t) : e ∈ (startFrom now token entries).1 := by
  induction entries generalizing token with
  | nil => exact he
  | cons e₀ entries ih =>
    rw [startFrom]
    rcases List.mem_cons.mp he with rfl | he
    · rw [if_neg (by simp [not_waits_of_dialing ht])]
      exact List.mem_cons_self ..
    · split
      · exact List.mem_cons_of_mem _ (ih he)
      · exact List.mem_cons_of_mem _ (ih he)

/-- Each dial has its row. -/
theorem exists_row_of_mem_startedFrom {d : Dial} (hd : d ∈ startedFrom now token entries) :
    d.Outstanding ∧
      ∃ e ∈ (startFrom now token entries).1, e.info = d.info ∧ e.dialing = some d.token := by
  induction entries generalizing token with
  | nil => cases hd
  | cons e₀ entries ih =>
    rw [startedFrom] at hd
    rw [startFrom]
    by_cases hwaits : e₀.waits now
    · rw [if_pos hwaits] at hd ⊢
      rcases List.mem_cons.mp hd with heq | hd
      · rw [heq]
        exact ⟨⟨rfl, rfl⟩, _, List.mem_cons_self .., rfl, rfl⟩
      · obtain ⟨hopen, e, he, hrow⟩ := ih hd
        exact ⟨hopen, e, List.mem_cons_of_mem _ he, hrow⟩
    · rw [if_neg hwaits] at hd ⊢
      obtain ⟨hopen, e, he, hrow⟩ := ih hd
      exact ⟨hopen, e, List.mem_cons_of_mem _ he, hrow⟩

/-- The tokens are the next values of the counter. -/
theorem startedFrom_tokens :
    (startedFrom now token entries).map Dial.token =
      Counter.given token (startedFrom now token entries).length := by
  induction entries generalizing token with
  | nil => rfl
  | cons e entries ih =>
    rw [startedFrom]
    split
    · rw [List.map_cons, List.length_cons, ← Counter.given_cons, ih]
    · exact ih

theorem startFrom_token :
    (startFrom now token entries).2 = token + .ofNat (startedFrom now token entries).length := by
  induction entries generalizing token with
  | nil => exact (UInt64.add_zero token).symm
  | cons e entries ih =>
    rw [startFrom, startedFrom]
    split
    · rw [List.length_cons, ← Counter.one_add_ofNat]
      exact ih
    · exact ih

end Links

/-! ## Tokens -/

namespace Ledger

variable [UriParser] {l : Ledger} {op : Links.Op}

/-- The tokens of the dials are the values of the counter so far. -/
structure Counted (l : Ledger) : Prop where
  tokens : l.dials.map Dial.token = Counter.given 0 l.dials.length
  next : l.links.nextToken = .ofNat l.dials.length

omit [UriParser] in
theorem map_token_after (op : Links.Op) (ls : Links) (dials : List Dial) :
    (dials.map (Dial.after op ls)).map Dial.token = dials.map Dial.token := by
  rw [List.map_map]
  rfl

theorem nextToken_step (op : Links.Op) (ls : Links) :
    (op.on ls).nextToken = ls.nextToken + .ofNat (op.starts ls).length := by
  cases op with
  | startDue now => exact Links.startFrom_token
  | add uri sintf kind now =>
    rw [Links.Op.on, Links.add]
    refine Eq.trans ?_ (UInt64.add_zero _).symm
    split
    · rfl
    · split <;> rfl
  | accept uri id peer now =>
    rw [Links.Op.on, Links.accept]
    refine Eq.trans ?_ (UInt64.add_zero _).symm
    split <;> rfl
  | remove uri sintf =>
    rw [Links.Op.on, Links.remove]
    refine Eq.trans ?_ (UInt64.add_zero _).symm
    split <;> rfl
  | markLive token id peer now => exact (UInt64.add_zero _).symm
  | markFailed token err now => exact (UInt64.add_zero _).symm
  | noteLiveness links clock => exact (UInt64.add_zero _).symm

omit [UriParser] in
theorem starts_tokens (op : Links.Op) (ls : Links) :
    (op.starts ls).map Dial.token = Counter.given ls.nextToken (op.starts ls).length := by
  cases op with
  | startDue now => exact Links.startedFrom_tokens
  | _ => rfl

theorem Counted.step (h : l.Counted) (op : Links.Op) : (l.step op).Counted where
  tokens := by
    rw [Ledger.step, List.map_append, map_token_after, h.tokens, starts_tokens, h.next,
      List.length_append, List.length_map, ← Counter.given_append, UInt64.zero_add]
  next := by
    rw [Ledger.step, nextToken_step, h.next, List.length_append, List.length_map, UInt64.ofNat_add]

theorem run_counted (ops : List Links.Op) : (run ops).Counted :=
  List.foldlRecOn ops step ⟨rfl, rfl⟩ fun _ h op _ => h.step op

omit [UriParser] in
theorem Counted.nodup (h : l.Counted) (hdials : l.dials.length ≤ 2 ^ 64) :
    (l.dials.map Dial.token).Nodup := by
  rw [h.tokens]
  exact Counter.given_nodup hdials

/-! ## Rows and their dials -/

/-- The rows that wait for a dial and the dials that are under way are the same. -/
structure Matched (l : Ledger) : Prop where
  dial : ∀ e ∈ l.links.entries, ∀ t, e.dialing = some t →
    ∃ d ∈ l.dials, d.token = t ∧ d.info = e.info ∧ d.Outstanding
  row : ∀ d ∈ l.dials, d.Outstanding →
    ∃ e ∈ l.links.entries, e.info = d.info ∧ e.dialing = some d.token

end Ledger

namespace Links

/-- Two rows of one name are one row. -/
theorem eq_of_info {ls : Links} {e e' : Entry} (he : e ∈ ls.entries) (he' : e' ∈ ls.entries)
    (h : e.info = e'.info) : e = e' :=
  List.inj_on_of_nodup_map ls.distinct he he' h

/-- What a call that starts no dial does to the rows that wait for one: a row that waits after
it did so before, for a token that was not reported; a row that waited for another token than
the one reported still does, or is gone. -/
structure Settles (reported : Option UInt64) (ls ls' : Links) : Prop where
  before : ∀ e' ∈ ls'.entries, ∀ t, e'.dialing = some t →
    reported ≠ some t ∧ ∃ e ∈ ls.entries, e.info = e'.info ∧ e.dialing = some t
  after : ∀ e ∈ ls.entries, ∀ t, e.dialing = some t → reported ≠ some t → e.info ∈ ls'.infos →
    ∃ e' ∈ ls'.entries, e'.info = e.info ∧ e'.dialing = some t

variable {ls ls' : Links}

theorem Settles.refl : Settles none ls ls where
  before e he _ ht := ⟨nofun, e, he, rfl, ht⟩
  after e he _ ht _ _ := ⟨e, he, rfl, ht⟩

/-- A new row waits for nothing. -/
theorem Settles.push {e : Entry} (h : ls.find e.uri e.sintf = none) (hdial : e.dialing = none) :
    Settles none ls (ls.push e h) where
  before e' he' t ht := by
    rcases List.mem_append.mp he' with he' | he'
    · exact ⟨nofun, e', he', rfl, ht⟩
    · cases List.mem_singleton.mp he'
      cases hdial.symm.trans ht
  after e he t ht _ _ := ⟨e, List.mem_append_left _ he, rfl, ht⟩

/-- A row that is amended keeps its dial, or the table is told of its result. -/
theorem Settles.amend {p : Entry → Bool} {f : Entry → Option Entry}
    (hf : ∀ e e', f e = some e' → e'.info = e.info)
    (hdial : ∀ e e', f e = some e' → e'.dialing = e.dialing) :
    Settles none ls (ls.amend p f hf) where
  before e' he' t ht := by
    refine ⟨nofun, ?_⟩
    rcases mem_amend he' with he' | ⟨e, hfind, hamended⟩
    · exact ⟨e', he', rfl, ht⟩
    · refine ⟨e, List.mem_of_find?_eq_some hfind, (hf e e' hamended).symm, ?_⟩
      rw [← hdial e e' hamended, ht]
  after e he t ht _ hinfo := by
    by_cases hfind : ls.entries.find? p = some e
    · obtain ⟨e', he', hinfo'⟩ := List.mem_map.mp hinfo
      have hamended := eq_of_mem_amend ls.distinct hfind he' hinfo'
      exact ⟨e', he', hinfo', (hdial e e' hamended).trans ht⟩
    · exact ⟨e, mem_amend_of_mem he hfind, rfl, ht⟩

theorem dialing_of_find? {token : UInt64} {entries : List Entry} {e : Entry}
    (h : entries.find? (fun e => e.dialing = some token) = some e) : e.dialing = some token := by
  have := List.find?_some h
  simpa using this

/-- The result of a dial: the row that waits for it does not any more. -/
theorem Settles.report {token : UInt64} {f : Entry → Option Entry}
    (hf : ∀ e e', f e = some e' → e'.info = e.info)
    (hdial : ∀ e e', f e = some e' → e'.dialing = none)
    (huniq : ∀ e ∈ ls.entries, ∀ e' ∈ ls.entries, e.dialing = some token →
      e'.dialing = some token → e = e') :
    Settles (some token) ls (ls.amend (fun e => e.dialing = some token) f hf) where
  before e' he' t ht := by
    rcases mem_amend he' with hmem | ⟨e, hfind, hamended⟩
    · refine ⟨fun htoken => ?_, e', hmem, rfl, ht⟩
      cases htoken
      -- The one row that waits for the token is the one that was amended.
      cases hfind : ls.entries.find? (fun e => e.dialing = some token) with
      | none => exact absurd (decide_eq_true ht) (List.find?_eq_none.mp hfind e' hmem)
      | some e =>
        have he := dialing_of_find? hfind
        have heq := huniq e' hmem e (List.mem_of_find?_eq_some hfind) ht he
        have hamended := eq_of_mem_amend ls.distinct hfind he' (congrArg Entry.info heq)
        cases (hdial e e' hamended).symm.trans ht
    · cases (hdial e e' hamended).symm.trans ht
  after e he t ht hne _ := by
    refine ⟨e, mem_amend_of_mem he fun hfind => hne ?_, rfl, ht⟩
    exact (dialing_of_find? hfind).symm.trans ht

theorem mem_noteFrom {links : LinkSet} {clock : Nat → Instant} {i : Nat} {entries : List Entry}
    {e' : Entry} (h : e' ∈ noteFrom links clock i entries) :
    ∃ e ∈ entries, ∃ now, e.noted links now = some e' := by
  induction entries generalizing i with
  | nil => cases h
  | cons e entries ih =>
    rw [noteFrom] at h
    rcases List.mem_append.mp h with h | h
    · exact ⟨e, List.mem_cons_self .., _, Option.mem_toList.mp h⟩
    · obtain ⟨e₁, he₁, hnoted⟩ := ih h
      exact ⟨e₁, List.mem_cons_of_mem _ he₁, hnoted⟩

theorem noted_dialing {links : LinkSet} {now : Instant} {e e' : Entry}
    (h : e.noted links now = some e') : e'.dialing = e.dialing := by
  unfold Entry.noted at h
  split at h
  · cases h
    rfl
  · split_ifs at h <;> cases h <;> rfl

theorem Settles.noteLiveness (links : LinkSet) (clock : Nat → Instant) :
    Settles none ls (ls.noteLiveness links clock) where
  before e' he' t ht := by
    obtain ⟨e, he, now, hnoted⟩ := mem_noteFrom he'
    exact ⟨nofun, e, he, (Entry.noted_info hnoted).symm, (noted_dialing hnoted).symm.trans ht⟩
  after e he t ht _ hinfo := by
    obtain ⟨e', he', hinfo'⟩ := List.mem_map.mp hinfo
    obtain ⟨e₁, he₁, now, hnoted⟩ := mem_noteFrom he'
    have heq : e₁ = e := eq_of_info he₁ he ((Entry.noted_info hnoted).symm.trans hinfo')
    exact ⟨e', he', hinfo', by rw [noted_dialing hnoted, heq, ht]⟩

end Links

namespace Ledger

variable [UriParser] {l : Ledger} {op : Links.Op}

omit [UriParser] in
/-- Two dials of one token are one dial. -/
theorem eq_of_token (h : (l.dials.map Dial.token).Nodup) {d d' : Dial} (hd : d ∈ l.dials)
    (hd' : d' ∈ l.dials) (htoken : d.token = d'.token) : d = d' :=
  List.inj_on_of_nodup_map h hd hd' htoken

omit [UriParser] in
theorem Matched.eq_of_dialing (h : l.Matched) (hnodup : (l.dials.map Dial.token).Nodup)
    {e e' : Entry} (he : e ∈ l.links.entries) (he' : e' ∈ l.links.entries) {t : UInt64}
    (ht : e.dialing = some t) (ht' : e'.dialing = some t) : e = e' := by
  obtain ⟨d, hd, htoken, hinfo, -⟩ := h.dial e he t ht
  obtain ⟨d', hd', htoken', hinfo', -⟩ := h.dial e' he' t ht'
  have heq := eq_of_token hnodup hd hd' (htoken.trans htoken'.symm)
  exact Links.eq_of_info he he' (by rw [← hinfo, ← hinfo', heq])

theorem settles (h : l.Matched) (hnodup : (l.dials.map Dial.token).Nodup)
    (hstart : ∀ now, op ≠ .startDue now) : Links.Settles op.reports l.links (op.on l.links) := by
  cases op with
  | startDue now => exact absurd rfl (hstart now)
  | add uri sintf kind now =>
    rw [Links.Op.on, Links.add]
    split
    · exact .refl
    · split
      · rename_i hnew
        exact .push hnew rfl
      · refine .amend Entry.kicked_info fun e e' hkicked => ?_
        cases hkicked
        rfl
  | accept uri id peer now =>
    rw [Links.Op.on, Links.accept]
    split
    · rename_i hnew
      exact .push hnew rfl
    · refine .amend Entry.accepted_info fun e e' haccepted => ?_
      cases haccepted
      rfl
  | remove uri sintf =>
    rw [Links.Op.on, Links.remove]
    split
    · exact .refl
    · exact .amend (fun _ _ hremoved => by cases hremoved) fun _ _ hremoved => by cases hremoved
  | markLive token id peer now =>
    refine .report Entry.connected_info (fun e e' hlive => ?_) fun e he e' he' =>
      h.eq_of_dialing hnodup he he'
    cases hlive
    rfl
  | markFailed token err now =>
    refine .report Entry.failed_info (fun e e' hfailed => ?_) fun e he e' he' =>
      h.eq_of_dialing hnodup he he'
    unfold Entry.failed at hfailed
    split at hfailed <;> cases hfailed
    rfl
  | noteLiveness links clock => exact .noteLiveness links clock

omit [UriParser] in
theorem outstanding_after {ls : Links} {d : Dial} :
    (d.after op ls).Outstanding ↔
      d.Outstanding ∧ op.reports ≠ some d.token ∧ d.info ∈ ls.infos := by
  simp only [Dial.Outstanding, Dial.after, decide_eq_false_iff_not, not_or, not_not]
  simp only [Bool.not_eq_true]
  tauto

/-- One call. -/
theorem Matched.step (h : l.Matched) (hnodup : (l.dials.map Dial.token).Nodup) (op : Links.Op) :
    (l.step op).Matched := by
  by_cases hstart : ∃ now, op = .startDue now
  · obtain ⟨now, rfl⟩ := hstart
    -- The names stay, and so do the rows that wait.
    have hinfos : ((Links.Op.startDue now).on l.links).infos = l.links.infos :=
      Links.startFrom_info now _ _
    refine ⟨fun e he t ht => ?_, fun d hd hopen => ?_⟩
    · rcases Links.mem_startFrom he with he | ⟨d, hd, hinfo, htoken⟩
      · obtain ⟨d, hd, htoken, hinfo, hopen⟩ := h.dial e he t ht
        refine ⟨_, List.mem_append_left _ (List.mem_map_of_mem hd), htoken, hinfo, ?_⟩
        refine outstanding_after.mpr ⟨hopen, nofun, ?_⟩
        rw [hinfos, hinfo]
        exact List.mem_map_of_mem he
      · have hopen := (Links.exists_row_of_mem_startedFrom hd).1
        refine ⟨d, List.mem_append_right _ hd, ?_, hinfo, hopen⟩
        exact Option.some_inj.mp (htoken.symm.trans ht)
    · rcases List.mem_append.mp hd with hd | hd
      · obtain ⟨d, hbefore, rfl⟩ := List.mem_map.mp hd
        obtain ⟨e, he, hinfo, ht⟩ := h.row d hbefore (outstanding_after.mp hopen).1
        exact ⟨e, Links.mem_startFrom_of_dialing he ht, hinfo, ht⟩
      · exact (Links.exists_row_of_mem_startedFrom hd).2
  · have hstart' : ∀ now, op ≠ .startDue now := fun now hop => hstart ⟨now, hop⟩
    have hsettles := settles h hnodup hstart'
    have hdials : (l.step op).dials = l.dials.map (Dial.after op (op.on l.links)) := by
      cases op with
      | startDue now => exact absurd rfl (hstart' now)
      | _ => exact List.append_nil _
    refine ⟨fun e' he' t ht => ?_, fun d hd hopen => ?_⟩
    · obtain ⟨hne, e, he, hinfo, ht'⟩ := hsettles.before e' he' t ht
      obtain ⟨d, hd, htoken, hinfo', hopen⟩ := h.dial e he t ht'
      rw [hdials]
      refine ⟨_, List.mem_map_of_mem hd, htoken, hinfo'.trans hinfo, ?_⟩
      refine outstanding_after.mpr ⟨hopen, htoken ▸ hne, ?_⟩
      rw [hinfo', hinfo]
      exact List.mem_map_of_mem he'
    · rw [hdials] at hd
      obtain ⟨d, hbefore, rfl⟩ := List.mem_map.mp hd
      obtain ⟨hopen, hne, hinfo⟩ := outstanding_after.mp hopen
      obtain ⟨e, he, hinfo', ht⟩ := h.row d hbefore hopen
      obtain ⟨e', he', hinfo'', ht'⟩ := hsettles.after e he _ ht hne (hinfo' ▸ hinfo)
      exact ⟨e', he', hinfo''.trans hinfo', ht'⟩

theorem length_dials_step (l : Ledger) (op : Links.Op) :
    l.dials.length ≤ (l.step op).dials.length := by
  rw [step, List.length_append, List.length_map]
  exact Nat.le_add_right ..

/-- All calls, as long as the tokens last. -/
theorem run_matched (ops : List Links.Op) (hdials : (run ops).dials.length ≤ 2 ^ 64) :
    (run ops).Matched := by
  induction ops using List.reverseRecOn with
  | nil => exact ⟨nofun, nofun⟩
  | append_singleton ops op ih =>
    have hrun : run (ops ++ [op]) = (run ops).step op := List.foldl_append ..
    rw [hrun] at hdials ⊢
    have hbefore := (length_dials_step (run ops) op).trans hdials
    exact (ih hbefore).step ((run_counted ops).nodup hbefore) op

omit [UriParser] in
/-- The dials under way for a row: none, or the one whose token it has. -/
theorem Matched.outstanding_tokens (h : l.Matched) (hnodup : (l.dials.map Dial.token).Nodup)
    {e : Entry} (he : e ∈ l.links.entries) :
    (l.outstanding e).map Dial.token = e.dialing.toList := by
  have hmem : ∀ t, t ∈ (l.outstanding e).map Dial.token ↔ t ∈ e.dialing.toList := by
    intro t
    rw [List.mem_map, Option.mem_toList]
    constructor
    · intro ⟨d, hd, htoken⟩
      obtain ⟨hd, hrow⟩ := List.mem_filter.mp hd
      obtain ⟨hinfo, hopen⟩ := of_decide_eq_true hrow
      obtain ⟨e', he', hinfo', ht⟩ := h.row d hd hopen
      cases Links.eq_of_info he he' (hinfo.symm.trans hinfo'.symm)
      rw [← htoken]
      exact ht
    · intro ht
      obtain ⟨d, hd, htoken, hinfo, hopen⟩ := h.dial e he t ht
      exact ⟨d, List.mem_filter.mpr ⟨hd, decide_eq_true ⟨hinfo, hopen⟩⟩, htoken⟩
  have hsub : ((l.outstanding e).map Dial.token).Nodup :=
    hnodup.sublist (List.filter_sublist.map _)
  cases hdial : e.dialing with
  | none =>
    rw [hdial] at hmem
    exact List.eq_nil_iff_forall_not_mem.mpr fun t ht => List.not_mem_nil ((hmem t).mp ht)
  | some t =>
    rw [hdial] at hmem
    have hperm := (List.perm_ext_iff_of_nodup hsub (List.nodup_singleton t)).mpr hmem
    exact List.perm_singleton.mp hperm

omit [UriParser] in
/-- No row waits for a dial whose row was removed. -/
theorem Matched.awaiting_removed (h : l.Matched) (hnodup : (l.dials.map Dial.token).Nodup)
    {d : Dial} (hd : d ∈ l.dials) (hremoved : d.removed = true) :
    l.links.awaiting d.token = none := by
  refine List.find?_eq_none.mpr fun e he ht => ?_
  obtain ⟨d', hd', htoken, -, hopen⟩ := h.dial e he d.token (of_decide_eq_true ht)
  have heq := eq_of_token hnodup hd' hd htoken
  rw [heq, Dial.Outstanding, hremoved] at hopen
  exact Bool.noConfusion hopen.2

end Ledger

namespace Links

variable {ls : Links} {token : UInt64}

/-- A result that no row waits for. -/
theorem amend_of_awaiting (h : ls.awaiting token = none) {f : Entry → Option Entry}
    (hf : ∀ e e', f e = some e' → e'.info = e.info) :
    ls.amend (fun e => e.dialing = some token) f hf = ls := by
  have hentries := amend_of_find?_eq_none (f := f) h
  cases ls
  exact Links.mk.injEq .. ▸ ⟨hentries, rfl⟩

end Links

/-! ## The whole -/

section

variable [UriParser]

/-- The table has one row for each peering. As long as no more than `2 ^ 64` dials were
started, no two of them had one token, a row has at most one under way, and the result of one
whose row was removed changes nothing. -/
theorem Ledger.one_row_one_dial (ops : List Links.Op) (hdials : (run ops).dials.length ≤ 2 ^ 64) :
    (run ops).links.infos.Nodup ∧
    ((run ops).dials.map Dial.token).Nodup ∧
    (∀ e ∈ (run ops).links.entries, ((run ops).outstanding e).length ≤ 1) ∧
    ∀ d ∈ (run ops).dials, d.removed = true → ∀ id peer err now,
      (run ops).links.markLive d.token id peer now = (false, (run ops).links) ∧
        (run ops).links.markFailed d.token err now = (run ops).links := by
  have hnodup := (run_counted ops).nodup hdials
  have hmatched := run_matched ops hdials
  refine ⟨(run ops).links.distinct, hnodup, fun e he => ?_, fun d hd hremoved id peer err now => ?_⟩
  · have htokens := congrArg List.length (hmatched.outstanding_tokens hnodup he)
    rw [List.length_map] at htokens
    rw [htokens]
    exact Option.length_toList_le
  · have hawaiting := hmatched.awaiting_removed hnodup hd hremoved
    refine ⟨?_, Links.amend_of_awaiting hawaiting Entry.failed_info⟩
    rw [Links.markLive, hawaiting, Links.amend_of_awaiting hawaiting Entry.connected_info]
    rfl

end

/-! ## Tokens run out -/

section

/-- A parser that takes every text for a URI. -/
@[reducible] def permissive : UriParser := ⟨fun _ => .ok none⟩

attribute [local instance] permissive

/-- `tcp://h:1` -/
def peerUri : Text := ['t', 'c', 'p', ':', '/', '/', 'h', ':', '1']

/-- A row is removed while its dial is under way, and added again. -/
def readded : List Links.Op :=
  [.add peerUri [] .persistent 0, .startDue 0, .remove peerUri [], .add peerUri [] .persistent 0,
    .startDue 0]

theorem one_row_one_dial_readded :
    (Ledger.run readded).dials =
      [⟨0, .new peerUri [], false, true⟩, ⟨1, .new peerUri [], false, false⟩] ∧
    (Ledger.run readded).links.markFailed 0 [] 5 = (Ledger.run readded).links := by
  have hdials : (Ledger.run readded).dials =
      [⟨0, .new peerUri [], false, true⟩, ⟨1, .new peerUri [], false, false⟩] := by decide +kernel
  have hlength : (Ledger.run readded).dials.length ≤ 2 ^ 64 := by
    rw [hdials]
    decide
  refine ⟨hdials, ?_⟩
  have hresults := (Ledger.one_row_one_dial readded hlength).2.2.2
  have hfirst : (⟨0, .new peerUri [], false, true⟩ : Dial) ∈ (Ledger.run readded).dials := by
    simp [hdials]
  exact (hresults _ hfirst rfl 0 ⟨List.replicate 32 0, rfl⟩ [] 5).2

/-- One dial that fails: the row is ephemeral, and it goes. -/
def attempt (token : UInt64) : List Links.Op :=
  [.add peerUri [] .ephemeral 0, .startDue 0, .markFailed token [] 0]

/-- One after another. -/
def attempts (n : Nat) : List Links.Op := (List.range n).flatMap fun i => attempt (.ofNat i)

theorem attempt_run (token : UInt64) (distinct : (([] : List Entry).map Entry.info).Nodup)
    (dials : List Dial) :
    ((attempt token).foldl Ledger.step ⟨⟨[], token, distinct⟩, dials⟩).links.entries = [] ∧
      ((attempt token).foldl Ledger.step ⟨⟨[], token, distinct⟩, dials⟩).dials.length =
        dials.length + 1 := by
  obtain ⟨added, hadded⟩ : ∃ ls, ls = (Links.Op.add peerUri [] .ephemeral 0).on ⟨[], token, distinct⟩ :=
    ⟨_, rfl⟩
  have hstarts : (Links.startedFrom 0 added.nextToken added.entries).length = 1 := by
    rw [hadded]
    rfl
  have hdialing : ((Links.Op.startDue 0).on added).entries =
      [{ Entry.fresh peerUri [] .ephemeral none 0 with dialing := some token }] := by
    rw [hadded]
    rfl
  constructor
  · have hfailed :
        ((Links.Op.markFailed token [] 0).on ((Links.Op.startDue 0).on added)).entries = [] := by
      show Roots.amend (fun e => e.dialing = some token) (Entry.failed 0 []) _ = []
      rw [hdialing]
      simp [Roots.amend, Entry.failed, Entry.fresh]
    simpa [attempt, Ledger.step, ← hadded] using hfailed
  · simp [attempt, Ledger.step, Links.Op.starts, ← hadded, hstarts]

theorem attempts_run (n : Nat) :
    (Ledger.run (attempts n)).links.entries = [] ∧ (Ledger.run (attempts n)).dials.length = n := by
  induction n with
  | zero => exact ⟨rfl, rfl⟩
  | succ n ih =>
    have hsucc : attempts (n + 1) = attempts n ++ attempt (.ofNat n) := by
      simp [attempts, List.range_succ]
    have hrun : Ledger.run (attempts (n + 1)) =
        (attempt (.ofNat n)).foldl Ledger.step (Ledger.run (attempts n)) := by
      rw [hsucc]
      exact List.foldl_append ..
    have hnext := (Ledger.run_counted (attempts n)).next
    rw [hrun]
    obtain ⟨l, hl⟩ : ∃ l, l = Ledger.run (attempts n) := ⟨_, rfl⟩
    rw [← hl] at ih hnext ⊢
    obtain ⟨⟨entries, nextToken, hdistinct⟩, dials⟩ := l
    obtain ⟨hentries, hlength⟩ := ih
    dsimp only at hentries hlength hnext
    subst hentries hlength hnext
    exact attempt_run _ _ _

/-- One dial more than there are tokens. -/
theorem token_issued_twice :
    ∃ ops, ¬ ((Ledger.run ops).dials.map Dial.token).Nodup := by
  refine ⟨attempts (2 ^ 64 + 1), ?_⟩
  rw [(Ledger.run_counted _).tokens, (attempts_run _).2]
  exact Counter.given_not_nodup

end

end Roots.Client

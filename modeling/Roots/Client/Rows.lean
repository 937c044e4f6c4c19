import Roots.Client.Dials
import Roots.Client.Node
import Roots.Crypto.Sample

/-!
# Roots.Client.Rows

Rows and the links they name. A row that names a link of the set **should name it until the
link has left the set** (`Node.Keeps`), so that every link that ever had a row has one.

`busy` keeps a second accepted connection away from a row that has a link. Nothing keeps a
connection away from a row that has a dial under way: it may accept one, and then the result
of the dial comes. `mark_live` writes its own link over the accepted one and `mark_failed`
clears it, with the accepted link still in the set. That is the only way a name is lost
(`keeps_iff`).
-/

namespace Roots.Client

open RouterM

section

variable [Crypto] [UriParser] {n n' : Node}

/-! ## Names that are kept -/

/-- Every row that names a link of the set still does, or the link has left the set. -/
def Node.Keeps (n n' : Node) : Prop :=
  ∀ e ∈ n.peers.entries, ∀ id, e.Names id → id ∈ n.world.links.ids →
    id ∉ n'.world.links.ids ∨ ∃ e' ∈ n'.peers.entries, e'.info = e.info ∧ e'.Names id

/-- The result of a dial does not come to a row that names a link of the set. -/
def Node.Awaits (n : Node) : Task → Prop
  | .dialed token _ _ _ =>
      ∀ e, n.peers.awaiting token = some e → ∀ id, e.Names id → id ∉ n.world.links.ids
  | _ => True

omit [UriParser] in
theorem keeps_push {world : World} {e : Entry} (h : n.peers.find e.uri e.sintf = none) :
    n.Keeps ⟨world, n.peers.push e h⟩ := fun e' he' _ hnames _ =>
  .inr ⟨e', List.mem_append_left _ he', rfl, hnames⟩

omit [UriParser] in
/-- An amended row may lose its name only with the link. -/
theorem keeps_amend {world : World} {p : Entry → Bool} {f : Entry → Option Entry}
    (hf : ∀ e e', f e = some e' → e'.info = e.info)
    (h : ∀ e, n.peers.entries.find? p = some e → ∀ id, e.Names id → id ∈ n.world.links.ids →
      id ∉ world.links.ids ∨ ∃ e', f e = some e' ∧ e'.Names id) :
    n.Keeps ⟨world, n.peers.amend p f hf⟩ := by
  intro e he id hnames hlive
  by_cases hfind : n.peers.entries.find? p = some e
  · refine (h e hfind id hnames hlive).imp_right fun ⟨e', hamended, hnames'⟩ => ?_
    exact ⟨e', mem_amend_of_find? hfind hamended, hf e e' hamended, hnames'⟩
  · exact .inr ⟨e, mem_amend_of_mem he hfind, rfl, hnames⟩

omit [UriParser] in
/-- And if it loses it with the link still there, that is no other row's either. -/
theorem not_keeps_amend {world : World} {p : Entry → Bool} {f : Entry → Option Entry}
    (hf : ∀ e e', f e = some e' → e'.info = e.info) {e : Entry} {id : LinkId}
    (hfind : n.peers.entries.find? p = some e) (hnames : e.Names id)
    (hlive : id ∈ n.world.links.ids) (hstill : id ∈ world.links.ids)
    (h : ∀ e', f e = some e' → ¬ e'.Names id) : ¬ n.Keeps ⟨world, n.peers.amend p f hf⟩ := by
  intro hkeeps
  rcases hkeeps e (List.mem_of_find?_eq_some hfind) id hnames hlive with hgone | ⟨e', he', hinfo, hname⟩
  · exact hgone hstill
  · exact h e' (eq_of_mem_amend n.peers.distinct hfind he' hinfo) hname

omit [Crypto] [UriParser] in
theorem not_names_failed {now : Instant} {err : Text} {e e' : Entry}
    (h : e.failed now err = some e') (id : LinkId) : ¬ e'.Names id := by
  unfold Entry.failed at h
  split at h
  · cases h
  · cases h
    exact nofun

omit [Crypto] [UriParser] in
theorem names_connected {now : Instant} {id : LinkId} {peer : Key} {e e' : Entry}
    (h : e.connected now id peer = some e') {id' : LinkId} : e'.Names id' ↔ id = id' := by
  cases h
  exact Option.some_inj

omit [UriParser] in
theorem keeps_markFailed (world : World) {token : UInt64} {err : Text} {now : Instant}
    (h : ∀ e, n.peers.awaiting token = some e → ∀ id, e.Names id → id ∉ n.world.links.ids) :
    n.Keeps ⟨world, n.peers.markFailed token err now⟩ :=
  keeps_amend Entry.failed_info fun e hfind id hnames hlive =>
    absurd hlive (h e hfind id hnames)

omit [UriParser] in
theorem keeps_markLive (world : World) {token : UInt64} {id : LinkId} {peer : Key} {now : Instant}
    (h : ∀ e, n.peers.awaiting token = some e → ∀ id, e.Names id → id ∉ n.world.links.ids) :
    n.Keeps ⟨world, (n.peers.markLive token id peer now).2⟩ :=
  keeps_amend Entry.connected_info fun e hfind id hnames hlive =>
    absurd hlive (h e hfind id hnames)

omit [UriParser] in
theorem not_keeps_markFailed {world : World} {token : UInt64} {err : Text} {now : Instant}
    {e : Entry} {id : LinkId} (hfind : n.peers.awaiting token = some e) (hnames : e.Names id)
    (hlive : id ∈ n.world.links.ids) (hstill : id ∈ world.links.ids) :
    ¬ n.Keeps ⟨world, n.peers.markFailed token err now⟩ :=
  not_keeps_amend Entry.failed_info hfind hnames hlive hstill fun _ h => not_names_failed h id

/-! ## One task -/

omit [UriParser] in
theorem keeps_drop (hw : Inv .free n.world) (uri sintf : Text) :
    n.Keeps (n.onDrop uri sintf) := by
  unfold Node.onDrop Links.remove Links.liveId
  cases hfind : n.peers.find uri sintf with
  | none => exact fun e he id hnames _ => .inr ⟨e, he, rfl, hnames⟩
  | some e =>
    dsimp only [Option.bind_some]
    split
    · rename_i hnone
      refine keeps_amend (fun _ _ h => by cases h) fun e' hfind' id hnames => ?_
      cases hfind.symm.trans hfind'
      cases hnone.symm.trans hnames
    · rename_i id hsome
      refine keeps_amend (fun _ _ h => by cases h) fun e' hfind' id' hnames _ => .inl ?_
      cases hfind.symm.trans hfind'
      cases hsome.symm.trans hnames
      -- The link goes with the row.
      show id ∉ (n.world.links.remove id).ids
      rw [LinkSet.ids_remove]
      exact hw.nodup.not_mem_erase

theorem keeps_accept (peer : Key) (prio : UInt8) (uri : Option Text) (now : Instant) :
    n.Keeps (n.onAccept peer prio uri now) := by
  unfold Node.onAccept
  split
  · exact fun e he id hnames _ => .inr ⟨e, he, rfl, hnames⟩
  rename_i hbusy
  split
  · exact fun e he id hnames _ => .inr ⟨e, he, rfl, hnames⟩
  cases uri with
  | none => exact fun e he id hnames _ => .inr ⟨e, he, rfl, hnames⟩
  | some uri =>
    dsimp only
    unfold Links.accept
    split
    · exact keeps_push ‹_›
    · -- A row that is not busy names nothing.
      refine keeps_amend Entry.accepted_info fun e hfind id hnames => absurd ?_ hbusy
      obtain ⟨live, hlive, -⟩ := Option.map_eq_some_iff.mp hnames
      show n.peers.busy uri = true
      rw [Links.busy, Links.find, hfind, Option.any_some, hlive]
      rfl

omit [UriParser] in
/-- The result of a dial keeps the names exactly where the row that waits for it names no
link of the set. -/
theorem keeps_dial_iff (hw : Inv .free n.world) (token : UInt64)
    (outcome : Except Text (Key × UInt8)) (failed : Text) (now : Instant) :
    n.Keeps (n.onDial token outcome failed now) ↔
      ∀ e, n.peers.awaiting token = some e → ∀ id, e.Names id → id ∉ n.world.links.ids := by
  unfold Node.onDial
  cases outcome with
  | error err =>
    refine ⟨fun hkeeps e hfind id hnames hlive => ?_, keeps_markFailed _⟩
    exact not_keeps_markFailed hfind hnames hlive hlive hkeeps
  | ok conn =>
    obtain ⟨peer, prio⟩ := conn
    dsimp only
    rcases connect_cases peer prio (n.peers.awaiting token).isSome n.world with
      ⟨w', hrun, -, hentries⟩ | ⟨e, w', hrun, -, hlinks⟩
    · rw [hrun]
      have hstill : ∀ id ∈ n.world.links.ids, id ∈ w'.links.ids := by
        intro id hid
        rw [LinkSet.ids, hentries, List.map_append]
        exact List.mem_append_left _ hid
      refine ⟨fun hkeeps e hfind id hnames hlive => ?_, keeps_markLive _⟩
      refine not_keeps_amend Entry.connected_info hfind hnames hlive (hstill id hlive)
        (fun e' he' => ?_) hkeeps
      rw [names_connected he']
      rintro rfl
      exact lt_irrefl _ (hw.minted _ hlive)
    · rw [hrun]
      refine ⟨fun hkeeps e hfind id hnames hlive => ?_, keeps_markFailed _⟩
      exact not_keeps_markFailed hfind hnames hlive (hlinks ▸ hlive) hkeeps

omit [Crypto] [UriParser] in
theorem mem_startFrom {now : Instant} {token : UInt64} {entries : List Entry} {e : Entry}
    (h : e ∈ entries) :
    ∃ e' ∈ (Links.startFrom now token entries).1, e'.info = e.info ∧ e'.live = e.live := by
  induction entries generalizing token with
  | nil => cases h
  | cons e₀ entries ih =>
    rw [Links.startFrom]
    split
    · rcases List.mem_cons.mp h with rfl | h
      · exact ⟨_, List.mem_cons_self .., rfl, rfl⟩
      · obtain ⟨e', he', hsame⟩ := ih h
        exact ⟨e', List.mem_cons_of_mem _ he', hsame⟩
    · rcases List.mem_cons.mp h with rfl | h
      · exact ⟨_, List.mem_cons_self .., rfl, rfl⟩
      · obtain ⟨e', he', hsame⟩ := ih h
        exact ⟨e', List.mem_cons_of_mem _ he', hsame⟩

omit [Crypto] [UriParser] in
theorem mem_noteFrom {links : LinkSet} {clock : Nat → Instant} {i : Nat} {entries : List Entry}
    {e : Entry} {id : LinkId} (h : e ∈ entries) (hnames : e.Names id) (hlive : id ∈ links.ids) :
    e ∈ Links.noteFrom links clock i entries := by
  induction entries generalizing i with
  | nil => cases h
  | cons e₀ entries ih =>
    rw [Links.noteFrom]
    rcases List.mem_cons.mp h with rfl | h
    · obtain ⟨live, hlive', rfl⟩ := Option.map_eq_some_iff.mp hnames
      have hnoted : e.noted links (clock i) = some e := by
        rw [Entry.noted, hlive']
        exact if_pos hlive
      rw [hnoted]
      exact List.mem_cons_self ..
    · exact List.mem_append_right _ (ih h)

/-- **A task keeps the names of the rows unless it brings the result of a dial to a row that
names a link of the set.** -/
theorem keeps_iff (hw : Inv .free n.world) (t : Task) : n.Keeps (n.act t) ↔ n.Awaits t := by
  cases t with
  | dialed token outcome failed now => exact keeps_dial_iff hw token outcome failed now
  | dial uri sintf persistent now =>
    refine iff_of_true ?_ trivial
    unfold Node.act Links.add
    dsimp only
    split
    · exact fun e he id hnames _ => .inr ⟨e, he, rfl, hnames⟩
    · split
      · exact keeps_push ‹_›
      · exact keeps_amend Entry.kicked_info fun e _ id hnames _ => .inr ⟨_, rfl, hnames⟩
  | drop uri sintf => exact iff_of_true (keeps_drop hw uri sintf) trivial
  | accept peer prio uri now => exact iff_of_true (keeps_accept peer prio uri now) trivial
  | noteLiveness clock =>
    refine iff_of_true (fun e he id hnames hlive => .inr ?_) trivial
    exact ⟨e, mem_noteFrom he hnames hlive, rfl, hnames⟩
  | startDue now =>
    refine iff_of_true (fun e he id hnames _ => .inr ?_) trivial
    obtain ⟨e', he', hinfo, hlive⟩ := mem_startFrom he
    exact ⟨e', he', hinfo, (congrArg (Option.map Prod.fst) hlive).trans hnames⟩
  | work slice => exact iff_of_true (fun e he id hnames _ => .inr ⟨e, he, rfl, hnames⟩) trivial

/-! ## Where names come from -/

/-- Every row that names a link did so before, but for one that may name a new one. -/
def Renamed (new : LinkId → Prop) (before after : List Entry) : Prop :=
  ∃ i, ∀ e' ∈ after, ∀ id, e'.Names id →
    (∃ e ∈ before, e.info = e'.info ∧ e.Names id) ∨ (new id ∧ e'.info = i)

omit [Crypto] [UriParser] in
theorem Renamed.mono {new new' : LinkId → Prop} {before after : List Entry}
    (h : Renamed new before after) (hnew : ∀ id, new id → new' id) : Renamed new' before after := by
  obtain ⟨i, hrows⟩ := h
  refine ⟨i, fun e' he' id hnames => ?_⟩
  exact (hrows e' he' id hnames).imp_right fun ⟨hid, hinfo⟩ => ⟨hnew id hid, hinfo⟩

omit [Crypto] [UriParser] in
theorem renamed_of_subset {new : LinkId → Prop} {before after : List Entry}
    (h : ∀ e' ∈ after, ∀ id, e'.Names id → ∃ e ∈ before, e.info = e'.info ∧ e.Names id) :
    Renamed new before after := ⟨⟨[], []⟩, fun e' he' id hnames => .inl (h e' he' id hnames)⟩

omit [Crypto] [UriParser] in
theorem renamed_amend {new : LinkId → Prop} {entries : List Entry} {p : Entry → Bool}
    {f : Entry → Option Entry} (hf : ∀ e e', f e = some e' → e'.info = e.info)
    (hnew : ∀ e e' id, f e = some e' → e'.Names id → e.Names id ∨ new id) :
    Renamed new entries (amend p f entries) := by
  cases hfind : entries.find? p with
  | none =>
    rw [amend_of_find?_eq_none hfind]
    exact renamed_of_subset fun e he _ hnames => ⟨e, he, rfl, hnames⟩
  | some e =>
    refine ⟨e.info, fun e' he' id hnames => ?_⟩
    rcases mem_amend he' with he' | ⟨e₀, hfind₀, hamended⟩
    · exact .inl ⟨e', he', rfl, hnames⟩
    · cases hfind.symm.trans hfind₀
      refine (hnew e e' id hamended hnames).imp (fun h => ?_) fun h => ⟨h, hf e e' hamended⟩
      exact ⟨e, List.mem_of_find?_eq_some hfind, (hf e e' hamended).symm, h⟩

omit [Crypto] [UriParser] in
theorem renamed_push {new : LinkId → Prop} {ls : Links} {e : Entry}
    (h : ls.find e.uri e.sintf = none) (hnew : ∀ id, e.Names id → new id) :
    Renamed new ls.entries (ls.push e h).entries := by
  refine ⟨e.info, fun e' he' id hnames => ?_⟩
  rcases List.mem_append.mp he' with he' | he'
  · exact .inl ⟨e', he', rfl, hnames⟩
  · rw [List.mem_singleton.mp he'] at hnames ⊢
    exact .inr ⟨hnew id hnames, rfl⟩

omit [Crypto] [UriParser] in
theorem renamed_startFrom {new : LinkId → Prop} (now : Instant) (token : UInt64)
    (entries : List Entry) : Renamed new entries (Links.startFrom now token entries).1 := by
  refine renamed_of_subset fun e' he' id hnames => ?_
  induction entries generalizing token with
  | nil => cases he'
  | cons e entries ih =>
    rw [Links.startFrom] at he'
    have hrest : ∀ token, e' ∈ (Links.startFrom now token entries).1 →
        ∃ e₀ ∈ e :: entries, e₀.info = e'.info ∧ e₀.Names id := by
      intro token he'
      obtain ⟨e₀, he₀, hsame⟩ := ih token he'
      exact ⟨e₀, List.mem_cons_of_mem e he₀, hsame⟩
    split at he'
    · rcases List.mem_cons.mp he' with rfl | he'
      · exact ⟨e, List.mem_cons_self .., rfl, hnames⟩
      · exact hrest _ he'
    · rcases List.mem_cons.mp he' with rfl | he'
      · exact ⟨e', List.mem_cons_self .., rfl, hnames⟩
      · exact hrest _ he'

omit [Crypto] [UriParser] in
theorem renamed_noteFrom {new : LinkId → Prop} (links : LinkSet) (clock : Nat → Instant) (i : Nat)
    (entries : List Entry) : Renamed new entries (Links.noteFrom links clock i entries) := by
  refine renamed_of_subset fun e' he' id hnames => ?_
  induction entries generalizing i with
  | nil => cases he'
  | cons e entries ih =>
    rcases List.mem_append.mp he' with he' | he'
    · -- The row was noted as it is, or lost its name.
      have hnoted : e.noted links (clock i) = some e' := Option.mem_toList.mp he'
      refine ⟨e, List.mem_cons_self .., (Entry.noted_info hnoted).symm, ?_⟩
      unfold Entry.noted at hnoted
      split at hnoted
      · cases hnoted
        exact hnames
      · split_ifs at hnoted <;> cases hnoted
        · exact hnames
        · cases hnames
    · obtain ⟨e₀, he₀, hsame⟩ := ih (i + 1) he'
      exact ⟨e₀, List.mem_cons_of_mem e he₀, hsame⟩

/-- What a task does to the set of links and to the names: at most one link comes up, with the
next id, and at most one row gets it. -/
structure Node.Moves (n n' : Node) : Prop where
  nextLink : n.world.nextLink ≤ n'.world.nextLink
  ids : n'.world.links.ids ⊆ n.world.nextLink :: n.world.links.ids
  rows : Renamed (fun id => id = n.world.nextLink ∧ n.world.nextLink < n'.world.nextLink)
    n.peers.entries n'.peers.entries

omit [UriParser] in
theorem Node.Moves.of_peers {peers : Links}
    (h : Renamed (fun _ => False) n.peers.entries peers.entries) : n.Moves { n with peers } :=
  ⟨le_refl _, List.subset_cons_self .., h.mono fun _ => False.elim⟩

omit [UriParser] in
theorem Node.Moves.of_connect {peer : Key} {prio : UInt8} {kept : Bool} {r : Except Exit Unit}
    {world : World} {peers : Links} (hrun : connect peer prio kept n.world = (r, world))
    (h : Renamed (· = n.world.nextLink) n.peers.entries peers.entries) :
    n.Moves ⟨world, peers⟩ := by
  obtain ⟨hnext, hids⟩ : world.nextLink = n.world.nextLink + 1 ∧
      world.links.ids ⊆ n.world.nextLink :: n.world.links.ids := by
    rcases connect_cases peer prio kept n.world with
      ⟨w', hrun', hnext, hentries⟩ | ⟨e, w', hrun', hnext, hlinks⟩
    · cases hrun'.symm.trans hrun
      refine ⟨hnext, fun id hid => ?_⟩
      rw [LinkSet.ids, hentries, List.map_append, List.mem_append] at hid
      rcases hid with hid | hid
      · exact List.mem_cons_of_mem _ hid
      · cases kept with
        | false => cases hid
        | true => exact List.mem_cons.mpr (.inl (List.mem_singleton.mp hid))
    · cases hrun'.symm.trans hrun
      exact ⟨hnext, hlinks ▸ List.subset_cons_self ..⟩
  have hlt : n.world.nextLink < world.nextLink := hnext ▸ Nat.lt_succ_self _
  exact ⟨hlt.le, hids, h.mono fun _ hid => ⟨hid, hlt⟩⟩

omit [Crypto] [UriParser] in
theorem renamed_self {new : LinkId → Prop} (entries : List Entry) : Renamed new entries entries :=
  renamed_of_subset fun e he _ hnames => ⟨e, he, rfl, hnames⟩

omit [Crypto] [UriParser] in
theorem renamed_markFailed {new : LinkId → Prop} (ls : Links) (token : UInt64) (err : Text)
    (now : Instant) : Renamed new ls.entries (ls.markFailed token err now).entries :=
  renamed_amend Entry.failed_info fun _ _ id h hnames => absurd hnames (not_names_failed h id)

omit [Crypto] in
theorem renamed_accept (ls : Links) (uri : Text) (id : LinkId) (peer : Key) (now : Instant) :
    Renamed (· = id) ls.entries (ls.accept uri id peer now).entries := by
  unfold Links.accept
  split
  · refine renamed_push ‹_› fun id' hnames => ?_
    exact (Option.some.inj hnames).symm
  · refine renamed_amend Entry.accepted_info fun e e' id' h hnames => .inr ?_
    cases h
    exact (Option.some.inj hnames).symm

theorem Node.act_moves (hw : Inv .free n.world) (t : Task) : n.Moves (n.act t) := by
  cases t with
  | dial uri sintf persistent now =>
    refine .of_peers ?_
    unfold Links.add
    split
    · exact renamed_self _
    · split
      · refine renamed_push ‹_› fun id hnames => ?_
        cases hnames
      · refine renamed_amend Entry.kicked_info fun e e' id h hnames => .inl ?_
        cases h
        exact hnames
  | drop uri sintf =>
    unfold Node.act Node.onDrop Links.remove
    dsimp only
    cases n.peers.find uri sintf with
    | none => exact .of_peers (renamed_self _)
    | some e =>
      have hgone : Renamed (fun _ => False) n.peers.entries
          (amend (fun e => e.info = .new uri sintf) (fun _ => none) n.peers.entries) :=
        renamed_amend (fun _ _ h => by cases h) fun _ _ _ h => by cases h
      dsimp only
      split
      · exact .of_peers hgone
      · rename_i id _
        refine ⟨le_refl _, fun i hi => ?_, hgone.mono fun _ => False.elim⟩
        exact List.mem_cons_of_mem _ (n.world.links.ids_remove_subset id hi)
  | accept peer prio uri now =>
    unfold Node.act Node.onAccept
    dsimp only
    split
    · exact .of_peers (renamed_self _)
    · split
      · exact .of_connect ‹_› (renamed_self _)
      · refine .of_connect ‹_› ?_
        split
        · exact renamed_accept _ _ _ _ _
        · exact renamed_self _
  | dialed token outcome failed now =>
    unfold Node.act Node.onDial
    dsimp only
    split
    · exact .of_peers (renamed_markFailed _ _ _ _)
    · split
      · exact .of_connect ‹_› (renamed_markFailed _ _ _ _)
      · refine .of_connect ‹_› (renamed_amend Entry.connected_info fun e e' id h hnames => .inr ?_)
        exact ((names_connected h).mp hnames).symm
  | noteLiveness clock => exact .of_peers (renamed_noteFrom _ _ _ _)
  | startDue now => exact .of_peers (renamed_startFrom _ _ _)
  | work slice =>
    obtain ⟨hids, hnext⟩ := run_wired hw slice
    refine ⟨hnext, fun id hid => List.mem_cons_of_mem _ (hids hid), renamed_self _⟩

/-- No two rows name the same link, and only links that came up are named. -/
structure Node.Named (n : Node) : Prop where
  minted : ∀ e ∈ n.peers.entries, ∀ id, e.Names id → id < n.world.nextLink
  unique : ∀ e ∈ n.peers.entries, ∀ e' ∈ n.peers.entries, ∀ id, e.Names id → e'.Names id → e = e'

omit [UriParser] in
theorem Node.Moves.named (h : n.Moves n') (hnamed : n.Named) : n'.Named := by
  obtain ⟨i, hrows⟩ := h.rows
  refine ⟨fun e he id hname => ?_, fun e he e' he' id hname hname' => ?_⟩
  · rcases hrows e he id hname with ⟨e₀, he₀, -, hname₀⟩ | ⟨⟨rfl, hlt⟩, -⟩
    · exact (hnamed.minted e₀ he₀ id hname₀).trans_le h.nextLink
    · exact hlt
  · -- Rows with the same name are the same.
    refine List.inj_on_of_nodup_map n'.peers.distinct he he' ?_
    rcases hrows e he id hname with ⟨e₀, he₀, hinfo, hold⟩ | ⟨⟨hid, -⟩, hinfo⟩ <;>
      rcases hrows e' he' id hname' with ⟨e₁, he₁, hinfo', hold'⟩ | ⟨⟨hid', -⟩, hinfo'⟩
    · rw [← hinfo, ← hinfo', hnamed.unique e₀ he₀ e₁ he₁ id hold hold']
    · exact absurd (hid' ▸ hnamed.minted e₀ he₀ id hold) (lt_irrefl _)
    · exact absurd (hid ▸ hnamed.minted e₁ he₁ id hold') (lt_irrefl _)
    · rw [hinfo, hinfo']

theorem Node.named_run (seed : Key) (env : Env) (tasks : List Task) :
    ((Node.init seed env).run tasks).Named := by
  induction tasks using List.reverseRecOn with
  | nil => exact ⟨fun e he => absurd he List.not_mem_nil, fun e he => absurd he List.not_mem_nil⟩
  | append_singleton tasks t ih =>
    rw [Node.run_append]
    exact (Node.act_moves (Node.inv_run seed env tasks) t).named ih

/-! ## Runs -/

/-- Some row has named the link. -/
def Node.Listed (n : Node) (tasks : List Task) (id : LinkId) : Prop :=
  ∃ before after, tasks = before ++ after ∧ ∃ e ∈ (n.run before).peers.entries, e.Names id

theorem along_keeps_iff (seed : Key) (env : Env) (tasks : List Task) :
    (Node.init seed env).Along (fun n t => n.Keeps (n.act t)) tasks ↔
      (Node.init seed env).Along Node.Awaits tasks := by
  induction tasks using List.reverseRecOn with
  | nil => exact Iff.rfl
  | append_singleton tasks t ih =>
    rw [Node.along_append, Node.along_append, ih]
    refine and_congr_right fun _ => and_congr_left fun _ => ?_
    exact keeps_iff (Node.inv_run seed env tasks) t

/-- A link that was listed and is still there has a row, if no name was lost. -/
theorem exists_row {seed : Key} {env : Env} {before after : List Task} {id : LinkId}
    (hlisted : ∃ e ∈ ((Node.init seed env).run before).peers.entries, e.Names id)
    (h : (Node.init seed env).Along (fun n t => n.Keeps (n.act t)) (before ++ after)) :
    id < ((Node.init seed env).run (before ++ after)).world.nextLink ∧
      (id ∈ ((Node.init seed env).run (before ++ after)).world.links.ids →
        ∃ e ∈ ((Node.init seed env).run (before ++ after)).peers.entries, e.Names id) := by
  induction after using List.reverseRecOn with
  | nil =>
    rw [List.append_nil]
    obtain ⟨e, he, hnames⟩ := hlisted
    exact ⟨(Node.named_run seed env before).minted e he id hnames, fun _ => ⟨e, he, hnames⟩⟩
  | append_singleton after t ih =>
    rw [← List.append_assoc] at h ⊢
    obtain ⟨hbefore, hkeeps, -⟩ := Node.along_append.mp h
    obtain ⟨hlt, hrow⟩ := ih hbefore
    have hmoves := Node.act_moves (Node.inv_run seed env (before ++ after)) t
    rw [Node.run_append]
    refine ⟨hlt.trans_le hmoves.nextLink, fun hlive => ?_⟩
    -- It was there before, so it had a row.
    have hwas : id ∈ ((Node.init seed env).run (before ++ after)).world.links.ids :=
      (List.mem_cons.mp (hmoves.ids hlive)).resolve_left hlt.ne
    obtain ⟨e, he, hnames⟩ := hrow hwas
    rcases hkeeps e he id hnames hwas with hgone | ⟨e', he', -, hnames'⟩
    · exact absurd hlive hgone
    · exact ⟨e', he', hnames'⟩

/-- **Rows keep the links they name, and every link of the set that was ever listed has exactly
one row**, if and only if no dial reports back to a row that names a link of the set. -/
theorem rows_keep_iff (seed : Key) (env : Env) (tasks : List Task) :
    ((Node.init seed env).Along (fun n t => n.Keeps (n.act t)) tasks ∧
        ∀ id ∈ ((Node.init seed env).run tasks).world.links.ids,
          (Node.init seed env).Listed tasks id →
            ∃! e, e ∈ ((Node.init seed env).run tasks).peers.entries ∧ e.Names id) ↔
      (Node.init seed env).Along Node.Awaits tasks := by
  rw [← along_keeps_iff]
  refine ⟨And.left, fun hkeeps => ⟨hkeeps, fun id hlive hlisted => ?_⟩⟩
  obtain ⟨before, after, rfl, hrow⟩ := hlisted
  obtain ⟨e, he, hnames⟩ := (exists_row hrow hkeeps).2 hlive
  refine ⟨e, ⟨he, hnames⟩, fun e' ⟨he', hnames'⟩ => ?_⟩
  exact (Node.named_run seed env _).unique e' he' e he id hnames' hnames

end

/-! ## A race -/

section

attribute [local instance] Sample.lenient permissive

/-- A peer is configured and dialled. Before the dial is through, a connection from the same
address is accepted. -/
def racing : List Task :=
  [.dial peerUri [] true 0, .noteLiveness fun _ => 1, .startDue 2,
    .accept (Sample.smallKey 3) 0 (some peerUri) 3]

/-- Then the dial succeeds. -/
def raced : List Task := racing ++ [.dialed 0 (.ok (Sample.smallKey 3, 0)) [] 4]

def racer : Node := .init (Sample.smallKey 9) (.even 1)

theorem raced_facts :
    (racer.run racing).peers.entries.map (fun e => e.live.map Prod.fst) = [some 0] ∧
      (racer.run raced).peers.entries.map (fun e => e.live.map Prod.fst) = [some 1] ∧
      (racer.run raced).world.links.ids = [0, 1] := by decide +kernel

/-- The accepted link was listed and is still in the set, and no row names it. -/
theorem not_rows_keep_raced :
    racer.Listed raced 0 ∧ 0 ∈ (racer.run raced).world.links.ids ∧
      ¬ ∃! e, e ∈ (racer.run raced).peers.entries ∧ e.Names 0 := by
  obtain ⟨hlisted, hrows, hids⟩ := raced_facts
  refine ⟨⟨racing, _, rfl, ?_⟩, ?_, ?_⟩
  · have hmem : some 0 ∈ (racer.run racing).peers.entries.map fun e => e.live.map Prod.fst := by
      rw [hlisted]
      exact List.mem_singleton.mpr rfl
    obtain ⟨e, he, hnames⟩ := List.mem_map.mp hmem
    exact ⟨e, he, hnames⟩
  · rw [hids]
    exact List.mem_cons_self ..
  · rintro ⟨e, ⟨he, hnames⟩, -⟩
    have hmem := List.mem_map_of_mem (f := fun e : Entry => e.live.map Prod.fst) he
    rw [hrows, List.mem_singleton] at hmem
    cases hmem.symm.trans hnames

end

end Roots.Client

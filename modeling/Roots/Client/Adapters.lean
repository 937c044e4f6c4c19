import Roots.Client.Rebind
import Roots.Lib.Destutter
import Mathlib.Data.Prod.Lex

/-!
# Roots.Client.Adapters

What the adapters of a host are: `parse_if_inet6` of the text of `/proc/net/if_inet6`, one row for
each address, from `client/src/multicast.rs`.

The rows are grouped by interface, the interfaces are put in the order of their names, and the
addresses of each are sorted and cut to one of each run. They are meant to come out most usable
first, but the sort key starts with `!unusable`, and false is before true: **an address that cannot
be bound comes before every one that can**. An address with rows of both kinds is cut to one only
if the two meet in the middle. So the order is right only where it makes no difference
(`mostUsableFirst_iff`): where no address of an interface is usable, where all are, or where the
one address with an unusable row is also the lowest usable one.
-/

namespace Roots.Client

open Str (Hex)

/-! ## One row -/

/-- An address of an interface. -/
structure AddrRow where
  name : Text
  addr : Address
  unusable : Bool
deriving DecidableEq

/-- `IFA_F_TENTATIVE`. -/
def tentative : Nat := 0x04

/-- `IFA_F_DADFAILED`. -/
def dadFailed : Nat := 0x40

/-- `RT_SCOPE_LINK`, as the file prints it. -/
def linkScope : Text := "20".toList

/-- Whether a flags word makes an address unusable. One that is no number has no flags. -/
def unusableFlags (flags : Text) : Bool :=
  ((Str.fromStrRadix 0x100000000 16 (Str.utf8 flags)).getD 0) &&& (tentative ||| dadFailed) ≠ 0

/-- `Ipv6Addr::is_unicast_link_local`: the first segment is that of `fe80::/10`. -/
def isUnicastLinkLocal (addr : Address) : Bool :=
  (addr.head.toNat * 256 + addr.tail.head.toNat) &&& 0xffc0 = 0xfe80

/-- The address that a column spells, if it is a link-local one. -/
def linkLocalAddr [Hex] (col : Text) : Option Address :=
  (Hex.decode (Str.utf8 col)).bind fun bytes =>
    if h : bytes.length = 16 then
      if isUnicastLinkLocal ⟨bytes, h⟩ then some ⟨bytes, h⟩ else none
    else none

/-- What the loop over the lines makes of one. -/
def parseRow [Hex] (line : Text) : Option AddrRow :=
  match Str.splitWhitespace line with
  | addr :: _ :: _ :: scope :: flags :: name :: _ =>
      if scope = linkScope then
        (linkLocalAddr addr).map fun addr => ⟨name, addr, unusableFlags flags⟩
      else none
  | _ => none

/-- The text has a row of link scope for the address. -/
def Lists [Hex] (text : Text) (name : Text) (addr : Address) (unusable : Bool) : Prop :=
  ∃ line ∈ Str.lines text, ∃ col index len flags rest,
    Str.splitWhitespace line = col :: index :: len :: linkScope :: flags :: name :: rest ∧
    Hex.decode (Str.utf8 col) = some addr.toList ∧ isUnicastLinkLocal addr ∧
    unusableFlags flags = unusable

theorem linkLocalAddr_eq_some_iff [Hex] {col : Text} {addr : Address} :
    linkLocalAddr col = some addr ↔
      Hex.decode (Str.utf8 col) = some addr.toList ∧ isUnicastLinkLocal addr := by
  constructor
  · intro h
    obtain ⟨bytes, hdecode, h⟩ := Option.bind_eq_some_iff.mp h
    split_ifs at h with hlen hlocal
    cases h
    exact ⟨hdecode, hlocal⟩
  · rintro ⟨hdecode, hlocal⟩
    rw [linkLocalAddr, hdecode, Option.bind_some, dif_pos addr.toList_length]
    exact if_pos hlocal

theorem parseRow_eq_some_iff [Hex] {line : Text} {row : AddrRow} :
    parseRow line = some row ↔ ∃ col index len flags rest,
      Str.splitWhitespace line = col :: index :: len :: linkScope :: flags :: row.name :: rest ∧
      linkLocalAddr col = some row.addr ∧ unusableFlags flags = row.unusable := by
  constructor
  · intro h
    unfold parseRow at h
    split at h
    case h_1 addr index len scope flags name rest hcols =>
      split_ifs at h with hscope
      obtain ⟨a, ha, rfl⟩ := Option.map_eq_some_iff.mp h
      exact ⟨addr, index, len, flags, rest, hscope ▸ hcols, ha, rfl⟩
    case h_2 => cases h
  · rintro ⟨col, index, len, flags, rest, hcols, haddr, hflags⟩
    rw [parseRow, hcols]
    simp only [if_pos, haddr, Option.map_some, hflags]

/-! ## All rows -/

/-- What an interface has. -/
abbrev Adapter := Text × List (Address × Bool)

/-- The address goes to the interface of its name, or opens one. -/
def file : List Adapter → AddrRow → List Adapter
  | [], row => [(row.name, [(row.addr, row.unusable)])]
  | adapter :: out, row =>
      if adapter.1 = row.name then
        (adapter.1, adapter.2 ++ [(row.addr, row.unusable)]) :: out
      else adapter :: file out row

/-- One turn of the loop over the lines. -/
def fileLine [Hex] (out : List Adapter) (line : Text) : List Adapter :=
  match parseRow line with
  | some row => file out row
  | none => out

/-- The order of strings: that of their bytes. -/
def nameKey (name : Text) : List Nat := (Str.utf8 name).map UInt8.toNat

/-- The number an address spells, which is how addresses are compared. -/
def addrNat (addr : Address) : Nat := addr.toList.foldl (fun acc b => acc * 256 + b.toNat) 0

/-- The sort key of an address. -/
def usableKey (entry : Address × Bool) : Bool ×ₗ Nat := toLex (!entry.2, addrNat entry.1)

/-- The addresses of an interface, sorted, and of each run of equals the first. -/
def present (addrs : List (Address × Bool)) : List Address :=
  ((addrs.insertionSort fun a b => usableKey a ≤ usableKey b).destutter
    fun a b => a.1 ≠ b.1).map Prod.fst

/-- `parse_if_inet6`. -/
def parseIfInet6 [Hex] (text : Text) : List (Text × List Address) :=
  let out := (Str.lines text).foldl fileLine []
  (out.insertionSort fun a b => nameKey a.1 ≤ nameKey b.1).map fun adapter =>
    (adapter.1, present adapter.2)

/-! ## Grouping -/

/-- The rows of a text, in order. -/
def addrRows [Hex] (text : Text) : List AddrRow := (Str.lines text).filterMap parseRow

theorem lists_iff [Hex] {text name : Text} {addr : Address} {unusable : Bool} :
    Lists text name addr unusable ↔ ⟨name, addr, unusable⟩ ∈ addrRows text := by
  unfold Lists addrRows
  simp only [List.mem_filterMap, parseRow_eq_some_iff, linkLocalAddr_eq_some_iff, and_assoc]

/-- What the rows say of one interface. -/
def entriesOf (rows : List AddrRow) (name : Text) : List (Address × Bool) :=
  (rows.filter fun row => row.name = name).map fun row => (row.addr, row.unusable)

theorem mem_entriesOf {rows : List AddrRow} {name : Text} {entry : Address × Bool} :
    entry ∈ entriesOf rows name ↔ ⟨name, entry.1, entry.2⟩ ∈ rows := by
  unfold entriesOf
  simp only [List.mem_map, List.mem_filter, decide_eq_true_eq]
  constructor
  · rintro ⟨row, ⟨hmem, rfl⟩, rfl⟩
    exact hmem
  · intro h
    exact ⟨_, ⟨h, rfl⟩, rfl⟩

theorem entriesOf_append (rows : List AddrRow) (row : AddrRow) (name : Text) :
    entriesOf (rows ++ [row]) name =
      entriesOf rows name ++ if row.name = name then [(row.addr, row.unusable)] else [] := by
  unfold entriesOf
  rw [List.filter_append, List.map_append]
  by_cases h : row.name = name
  · simp [h]
  · simp [h]

/-- The interfaces stand for the rows: one for each name, with all its addresses in order. -/
structure Files (rows : List AddrRow) (out : List Adapter) : Prop where
  nodup : (out.map Prod.fst).Nodup
  entries : ∀ adapter ∈ out, adapter.2 = entriesOf rows adapter.1
  names : ∀ name, name ∈ out.map Prod.fst ↔ ∃ row ∈ rows, row.name = name

theorem map_fst_file_of_mem {out : List Adapter} {row : AddrRow}
    (h : row.name ∈ out.map Prod.fst) : (file out row).map Prod.fst = out.map Prod.fst := by
  induction out with
  | nil => simp at h
  | cons adapter out ih =>
    by_cases hname : adapter.1 = row.name
    · rw [file, if_pos hname]
      rfl
    · rw [file, if_neg hname, List.map_cons, List.map_cons, ih]
      exact (List.mem_cons.mp h).resolve_left fun heq => hname heq.symm

theorem file_of_not_mem {out : List Adapter} {row : AddrRow} (h : row.name ∉ out.map Prod.fst) :
    file out row = out ++ [(row.name, [(row.addr, row.unusable)])] := by
  induction out with
  | nil => rfl
  | cons adapter out ih =>
    rw [List.map_cons, List.mem_cons, not_or] at h
    rw [file, if_neg fun heq => h.1 heq.symm, ih h.2]
    rfl

theorem mem_file_of_mem {out : List Adapter} {row : AddrRow} {adapter : Adapter}
    (hnodup : (out.map Prod.fst).Nodup) (hname : row.name ∈ out.map Prod.fst)
    (h : adapter ∈ file out row) : ∃ old ∈ out, adapter.1 = old.1 ∧
      adapter.2 = old.2 ++ if row.name = old.1 then [(row.addr, row.unusable)] else [] := by
  induction out with
  | nil => simp at hname
  | cons first out ih =>
    obtain ⟨hfresh, hnodup⟩ := List.nodup_cons.mp hnodup
    by_cases hfirst : first.1 = row.name
    · rw [file, if_pos hfirst] at h
      rcases List.mem_cons.mp h with rfl | h
      · exact ⟨first, List.mem_cons_self, rfl, by rw [if_pos hfirst.symm]⟩
      · refine ⟨adapter, List.mem_cons_of_mem _ h, rfl, ?_⟩
        have hne : row.name ≠ adapter.1 := by
          intro heq
          exact hfresh (hfirst ▸ heq ▸ List.mem_map_of_mem h)
        rw [if_neg hne, List.append_nil]
    · rw [file, if_neg hfirst] at h
      rcases List.mem_cons.mp h with rfl | h
      · exact ⟨adapter, List.mem_cons_self, rfl,
          by rw [if_neg fun heq => hfirst heq.symm, List.append_nil]⟩
      · obtain ⟨old, hold, hadapter⟩ :=
          ih hnodup ((List.mem_cons.mp hname).resolve_left fun heq => hfirst heq.symm) h
        exact ⟨old, List.mem_cons_of_mem _ hold, hadapter⟩

theorem Files.entriesOf_eq_nil {rows : List AddrRow} {out : List Adapter} {name : Text}
    (h : Files rows out) (hname : name ∉ out.map Prod.fst) : entriesOf rows name = [] := by
  refine List.eq_nil_iff_forall_not_mem.mpr fun entry hentry => hname ?_
  exact (h.names name).mpr ⟨_, mem_entriesOf.mp hentry, rfl⟩

/-- One row more. -/
theorem Files.file {rows : List AddrRow} {out : List Adapter} (h : Files rows out)
    (row : AddrRow) : Files (rows ++ [row]) (file out row) := by
  have hnames : ∀ name, (∃ r ∈ rows ++ [row], r.name = name) ↔
      name ∈ out.map Prod.fst ∨ row.name = name := by
    intro name
    rw [h.names]
    simp only [List.mem_append, List.mem_singleton, or_and_right, exists_or, exists_eq_left]
  by_cases hname : row.name ∈ out.map Prod.fst
  · refine ⟨?_, ?_, ?_⟩
    · rw [map_fst_file_of_mem hname]
      exact h.nodup
    · intro adapter hadapter
      obtain ⟨old, hold, hfst, hsnd⟩ := mem_file_of_mem h.nodup hname hadapter
      rw [hsnd, h.entries old hold, hfst, entriesOf_append]
    · intro name
      rw [map_fst_file_of_mem hname, hnames]
      constructor
      · exact .inl
      · rintro (hmem | rfl)
        · exact hmem
        · exact hname
  · rw [file_of_not_mem hname]
    refine ⟨?_, ?_, ?_⟩
    · rw [List.map_append, List.nodup_append_comm]
      exact List.nodup_cons.mpr ⟨hname, h.nodup⟩
    · intro adapter hadapter
      rcases List.mem_append.mp hadapter with hadapter | hadapter
      · have hne : row.name ≠ adapter.1 := fun heq => hname (heq ▸ List.mem_map_of_mem hadapter)
        rw [entriesOf_append, if_neg hne, List.append_nil]
        exact h.entries adapter hadapter
      · rw [List.mem_singleton.mp hadapter, entriesOf_append, h.entriesOf_eq_nil hname, if_pos rfl]
        rfl
    · intro name
      rw [List.map_append, List.mem_append, hnames]
      exact or_congr_right ⟨fun hmem => (List.mem_singleton.mp hmem).symm,
        fun heq => List.mem_singleton.mpr heq.symm⟩

/-- The interfaces after the loop over the lines. -/
def adaptersOf [Hex] (text : Text) : List Adapter := (addrRows text).foldl Client.file []

theorem files_foldl (rows : List AddrRow) : Files rows (rows.foldl Client.file []) := by
  induction rows using List.reverseRecOn with
  | nil => exact ⟨List.nodup_nil, fun _ h => absurd h List.not_mem_nil, by simp⟩
  | append_singleton rows row ih =>
    rw [List.foldl_append]
    exact ih.file row

theorem files_adaptersOf [Hex] (text : Text) : Files (addrRows text) (adaptersOf text) :=
  files_foldl (addrRows text)

theorem foldl_fileLine [Hex] (lines : List Text) (out : List Adapter) :
    lines.foldl fileLine out = (lines.filterMap parseRow).foldl Client.file out := by
  induction lines generalizing out with
  | nil => rfl
  | cons line lines ih =>
    rw [List.foldl_cons, ih, List.filterMap_cons, fileLine]
    cases parseRow line with
    | none => rfl
    | some row => rfl

theorem parseIfInet6_eq [Hex] (text : Text) : parseIfInet6 text =
    ((adaptersOf text).insertionSort fun a b => nameKey a.1 ≤ nameKey b.1).map fun adapter =>
      (adapter.1, present adapter.2) := by
  unfold parseIfInet6 adaptersOf addrRows
  rw [foldl_fileLine]

theorem mem_parseIfInet6 [Hex] {text : Text} {entry : Text × List Address}
    (h : entry ∈ parseIfInet6 text) : entry.2 = present (entriesOf (addrRows text) entry.1) := by
  rw [parseIfInet6_eq, List.mem_map] at h
  obtain ⟨adapter, hadapter, rfl⟩ := h
  have hmem := (List.mem_insertionSort _).mp hadapter
  rw [← (files_adaptersOf text).entries adapter hmem]

theorem perm_names [Hex] (text : Text) :
    ((parseIfInet6 text).map Prod.fst).Perm ((adaptersOf text).map Prod.fst) := by
  rw [parseIfInet6_eq, List.map_map]
  exact (List.perm_insertionSort _ _).map Prod.fst

/-- No two adapters have one name. -/
theorem nodup_names [Hex] (text : Text) : ((parseIfInet6 text).map Prod.fst).Nodup :=
  (perm_names text).nodup_iff.mpr (files_adaptersOf text).nodup

theorem mem_names_iff [Hex] {text name : Text} :
    name ∈ (parseIfInet6 text).map Prod.fst ↔ ∃ addr unusable, Lists text name addr unusable := by
  rw [(perm_names text).mem_iff, (files_adaptersOf text).names]
  simp only [lists_iff]
  constructor
  · rintro ⟨row, hrow, rfl⟩
    exact ⟨row.addr, row.unusable, hrow⟩
  · rintro ⟨addr, unusable, hrow⟩
    exact ⟨_, hrow, rfl⟩

/-! ## The order -/

theorem nameKey_injective : Function.Injective nameKey :=
  (List.map_injective_iff.mpr fun _ _ => UInt8.toNat_inj.mp).comp Str.utf8_injective

theorem addrNat_injective : Function.Injective addrNat := by
  intro a b h
  exact List.Vector.toList_injective
    (foldl_digits_inj (by rw [a.toList_length, b.toList_length]) h).2

theorem pairwise_names [Hex] (text : Text) :
    ((parseIfInet6 text).map Prod.fst).Pairwise fun a b => nameKey a < nameKey b := by
  have hsorted : ((parseIfInet6 text).map Prod.fst).Pairwise fun a b => nameKey a ≤ nameKey b := by
    rw [parseIfInet6_eq, List.map_map, List.pairwise_map]
    exact List.pairwise_insertionSort _ _
  refine (hsorted.and (nodup_names text)).imp fun {a b} h => lt_of_le_of_ne h.1 fun heq => ?_
  exact h.2 (nameKey_injective heq)

theorem usableKey_injective : Function.Injective usableKey := by
  intro a b h
  obtain ⟨husable, haddr⟩ := Prod.mk.inj (toLex_inj.mp h)
  exact Prod.ext (addrNat_injective haddr) (Bool.not_inj husable)

theorem usableKey_le_iff {a b : Address × Bool} : usableKey a ≤ usableKey b ↔
    (a.2 = true ∧ b.2 = false) ∨ (a.2 = b.2 ∧ addrNat a.1 ≤ addrNat b.1) := by
  rw [usableKey, usableKey, Prod.Lex.toLex_le_toLex]
  cases a.2 <;> cases b.2 <;> simp

theorem usableKey_lt_iff {a b : Address × Bool} : usableKey a < usableKey b ↔
    (a.2 = true ∧ b.2 = false) ∨ (a.2 = b.2 ∧ addrNat a.1 < addrNat b.1) := by
  rw [usableKey, usableKey, Prod.Lex.toLex_lt_toLex]
  cases a.2 <;> cases b.2 <;> simp

/-- The addresses before they are cut to one of each run. -/
def sortedEntries (entries : List (Address × Bool)) : List (Address × Bool) :=
  entries.insertionSort fun a b => usableKey a ≤ usableKey b

theorem mem_sortedEntries {entries : List (Address × Bool)} {entry : Address × Bool} :
    entry ∈ sortedEntries entries ↔ entry ∈ entries := List.mem_insertionSort _

theorem pairwise_sortedEntries (entries : List (Address × Bool)) :
    (sortedEntries entries).Pairwise fun a b => usableKey a ≤ usableKey b :=
  List.pairwise_insertionSort _ _

theorem present_eq (entries : List (Address × Bool)) :
    present entries = ((sortedEntries entries).map Prod.fst).destutter (· ≠ ·) :=
  List.map_destutter fun _ _ _ _ => Iff.rfl

theorem mem_present {entries : List (Address × Bool)} {addr : Address} :
    addr ∈ present entries ↔ ∃ unusable, (addr, unusable) ∈ entries := by
  rw [present_eq, Destutter.mem_destutter_ne, List.mem_map]
  simp only [mem_sortedEntries, Prod.exists, exists_and_right, exists_eq_right]

/-- What is sorted and can be picked from an interface's rows can be picked from its addresses. -/
theorem sublist_present {entries : List (Address × Bool)} (picked : List (Address × Bool))
    (hmem : ∀ entry ∈ picked, entry ∈ entries)
    (hsorted : picked.Pairwise fun a b => usableKey a < usableKey b)
    (hchain : (picked.map Prod.fst).IsChain (· ≠ ·)) :
    (picked.map Prod.fst).Sublist (present entries) := by
  rw [present_eq]
  refine Destutter.sublist_destutter_ne hchain (List.Sublist.map Prod.fst ?_)
  have hnodup : picked.Nodup := hsorted.imp fun hlt heq => hlt.ne (congrArg usableKey heq)
  have hsubperm := List.subperm_of_subset hnodup
    fun entry h => mem_sortedEntries.mpr (hmem entry h)
  have hanti : Std.Antisymm fun a b : Address × Bool => usableKey a ≤ usableKey b :=
    ⟨fun a b hab hba => usableKey_injective (le_antisymm hab hba)⟩
  exact List.sublist_of_subperm_of_pairwise hsubperm (hsorted.imp le_of_lt)
    (pairwise_sortedEntries entries)

/-- The addresses of an interface come out as they should: each once, and one that can be bound
before every one that cannot. -/
def InOrder (entries : List (Address × Bool)) (addrs : List Address) : Prop :=
  addrs.Nodup ∧ addrs.Pairwise fun a b => (b, false) ∈ entries → (a, false) ∈ entries

/-- Where the order makes no difference: an address with an unusable row next to one with a
usable row is itself usable, and no higher. -/
def Level (entries : List (Address × Bool)) : Prop :=
  ∀ f c, (f, true) ∈ entries → (c, false) ∈ entries →
    (f, false) ∈ entries ∧ addrNat f ≤ addrNat c

theorem Level.inOrder {entries : List (Address × Bool)} (h : Level entries) :
    InOrder entries (present entries) := by
  have hsorted := (List.Pairwise.and_mem.mp (pairwise_sortedEntries entries)).imp
    fun {a b} hab => And.intro (usableKey_le_iff.mp hab.2.2)
      (And.intro (mem_sortedEntries.mp hab.1) (mem_sortedEntries.mp hab.2.1))
  rw [present_eq]
  constructor
  · refine Destutter.nodup_destutter_ne (r := fun a b => addrNat a ≤ addrNat b)
      (fun a b hab hba => addrNat_injective (le_antisymm hab hba)) ?_
    refine List.pairwise_map.mpr (hsorted.imp fun {a b} hab => ?_)
    obtain ⟨f, uf⟩ := a
    obtain ⟨c, uc⟩ := b
    obtain ⟨⟨huf, huc⟩ | ⟨-, hle⟩, hf, hc⟩ := hab
    · cases huf
      cases huc
      exact (h f c hf hc).2
    · exact hle
  · refine List.Pairwise.sublist (List.destutter_sublist _ _) ?_
    refine List.pairwise_map.mpr (hsorted.imp fun {a b} hab hclean => ?_)
    obtain ⟨f, uf⟩ := a
    cases uf with
    | false => exact hab.2.1
    | true => exact (h f b.1 hab.2.1 hclean).1

theorem level_of_inOrder {entries : List (Address × Bool)}
    (h : InOrder entries (present entries)) : Level entries := by
  intro f c hf hc
  -- The unusable row stands before the usable one, and what stands first must be usable.
  have hclean : (f, false) ∈ entries := by
    by_cases hfc : f = c
    · exact hfc ▸ hc
    · have hsub : [f, c].Sublist (present entries) :=
        sublist_present [(f, true), (c, false)] (by simp [hf, hc])
          (by simp [usableKey_lt_iff]) (by simp [hfc])
      have hpair := h.2.sublist hsub
      simp only [List.pairwise_cons, List.mem_singleton, forall_eq] at hpair
      exact hpair.1 hc
  refine ⟨hclean, ?_⟩
  -- A lower usable address would stand between the two rows of `f`.
  by_contra hlt
  have hfc : f ≠ c := fun heq => hlt (heq ▸ le_rfl)
  have hsub : [f, c, f].Sublist (present entries) :=
    sublist_present [(f, true), (c, false), (f, false)] (by simp [hf, hc, hclean])
      (by simp [usableKey_lt_iff, not_le.mp hlt]) (by simp [hfc, hfc.symm])
  have hnodup := h.1.sublist hsub
  simp at hnodup

/-! ## Most usable first -/

/-- What `parse_if_inet6` is for. -/
structure MostUsableFirst [Hex] (text : Text) : Prop where
  /-- The names are in strictly increasing order -/
  sorted : ((parseIfInet6 text).map Prod.fst).Pairwise fun a b => nameKey a < nameKey b
  /-- and are those of the interfaces with a row. -/
  names : ∀ name, name ∈ (parseIfInet6 text).map Prod.fst ↔
    ∃ addr unusable, Lists text name addr unusable
  /-- Each has the addresses that are listed for it, -/
  listed : ∀ entry ∈ parseIfInet6 text, ∀ addr,
    addr ∈ entry.2 ↔ ∃ unusable, Lists text entry.1 addr unusable
  /-- once, -/
  once : ∀ entry ∈ parseIfInet6 text, entry.2.Nodup
  /-- and none that only has unusable rows before one that has a usable row. -/
  usable : ∀ entry ∈ parseIfInet6 text, entry.2.Pairwise fun a b =>
    Lists text entry.1 b false → Lists text entry.1 a false

/-- The names are always in order and the addresses those of the text. The addresses are in order,
each once, iff at no interface an address with an unusable row stands next to one with a usable row,
except that the lowest usable address may also have unusable rows. -/
theorem mostUsableFirst_iff [Hex] (text : Text) : MostUsableFirst text ↔
    ∀ name f c, Lists text name f true → Lists text name c false →
      Lists text name f false ∧ addrNat f ≤ addrNat c := by
  have hlists : ∀ {name addr unusable}, Lists text name addr unusable ↔
      (addr, unusable) ∈ entriesOf (addrRows text) name := by
    intro name addr unusable
    rw [lists_iff, mem_entriesOf]
  have hlevel : (∀ name f c, Lists text name f true → Lists text name c false →
      Lists text name f false ∧ addrNat f ≤ addrNat c) ↔
      ∀ name, Level (entriesOf (addrRows text) name) := by
    simp only [hlists, Level]
  rw [hlevel]
  constructor
  · intro h name f c hf hc
    have hname := mem_names_iff.mpr ⟨f, true, hlists.mpr hf⟩
    obtain ⟨entry, hentry, rfl⟩ := List.mem_map.mp hname
    have honce := h.once entry hentry
    have husable := h.usable entry hentry
    simp only [hlists] at husable
    rw [mem_parseIfInet6 hentry] at honce husable
    exact level_of_inOrder ⟨honce, husable⟩ f c hf hc
  · intro h
    refine ⟨pairwise_names text, fun _ => mem_names_iff, ?_, ?_, ?_⟩
    · intro entry hentry addr
      simp only [mem_parseIfInet6 hentry, mem_present, hlists]
    · intro entry hentry
      rw [mem_parseIfInet6 hentry]
      exact (h entry.1).inOrder.1
    · intro entry hentry
      simp only [hlists]
      rw [mem_parseIfInet6 hentry]
      exact (h entry.1).inOrder.2

section

attribute [local instance] Str.plainHex

/-- An interface with a usable address and one whose duplicate detection has not finished. -/
def vethText : Text :=
  ("fe800000000000000000000000000001 02 40 20 80 veth0\n" ++
    "fe800000000000000000000000000002 02 40 20 04 veth0\n").toList

/-- `fe80::` with a last byte. -/
def vethAddr (b : UInt8) : Address := ⟨[0xfe, 0x80, 0, 0, 0, 0, 0, 0, 0, 0, 0, 0, 0, 0, 0, b], rfl⟩

theorem addrRows_vethText : addrRows vethText =
    [⟨"veth0".toList, vethAddr 1, false⟩, ⟨"veth0".toList, vethAddr 2, true⟩] := by
  decide +kernel

/-- The tentative address comes first, and is the one a listener is bound on. -/
theorem tentative_first : ¬ MostUsableFirst vethText ∧
    (scanInterfaces (fun _ _ => true) [⟨[], true, true, 0, 0, []⟩] (parseIfInet6 vethText)).map
      InterfaceConfig.linkLocal = [vethAddr 2] := by
  have heval : parseIfInet6 vethText = [("veth0".toList, [vethAddr 2, vethAddr 1])] := by
    decide +kernel
  constructor
  · intro h
    have hpair := h.usable _ (heval ▸ List.mem_singleton_self _)
    have hfirst := (List.pairwise_cons.mp hpair).1 (vethAddr 1) (List.mem_singleton_self _)
    rw [lists_iff, lists_iff, addrRows_vethText] at hfirst
    exact absurd (hfirst List.mem_cons_self) (by decide +kernel)
  · rw [heval]
    rfl

end

end Roots.Client

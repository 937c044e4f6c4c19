import Roots.Bytes
import Roots.Lib.Str

/-!
# Roots.Uri.Escape

The values of a URI's query: `query_escape` of `src/multicast.rs` writes them and
`query_unescape` of `src/link.rs` reads them. Both work on bytes, and the reader leaves the two
digits of an escape to `u8::from_str_radix`. That function also takes a sign: `%+f` is read as the
byte 15, where Go refuses the whole value. `respell` writes such an escape with a zero in place
of the sign, and `query_unescape` of a string is **Go's rule for the respelled string**.
-/

namespace Roots.Uri

open Str (utf8 fromUtf8 byte toDigit fromStrRadix hexPair hexChars)

/-! ## The code -/

/-- `u8::from_str_radix(str::from_utf8(pair)?, 16)`. -/
def readPair (h l : UInt8) : Option UInt8 :=
  ((fromUtf8 [h, l]).bind fun pair => fromStrRadix 256 16 (utf8 pair)).map UInt8.ofNat

/-- The loop of `query_unescape`, where `pair` reads the two bytes after a percent sign. -/
def unescapeBytes (pair : UInt8 → UInt8 → Option UInt8) : Bytes → Option Bytes
  | [] => some []
  | b :: rest =>
      if b = byte '+' then (unescapeBytes pair rest).map (byte ' ' :: ·)
      else if b = byte '%' then
        match rest with
        | h :: l :: rest =>
            match pair h l with
            | some v => (unescapeBytes pair rest).map (v :: ·)
            | none => none
        | _ => none
      else (unescapeBytes pair rest).map (b :: ·)

/-- `query_unescape`. -/
def queryUnescape (s : Text) : Option Text := (unescapeBytes readPair (utf8 s)).bind fromUtf8

/-- The bytes `query_escape` leaves as they are: `A-Za-z0-9-_.~`. -/
def unreserved (b : UInt8) : Bool :=
  (65 ≤ b ∧ b ≤ 90) ∨ (97 ≤ b ∧ b ≤ 122) ∨ (48 ≤ b ∧ b ≤ 57) ∨
    b = byte '-' ∨ b = byte '_' ∨ b = byte '.' ∨ b = byte '~'

/-- One turn of `query_escape`. -/
def escapeByte (b : UInt8) : Text :=
  if unreserved b then [Char.ofNat b.toNat]
  else if b = byte ' ' then ['+']
  else '%' :: hexChars Str.upperHex b

/-- `query_escape`. -/
def queryEscape (v : Bytes) : Text := v.flatMap escapeByte

/-! ## Go's rule -/

/-- An ASCII hexadecimal digit. -/
def isHex (b : UInt8) : Bool := (toDigit 16 b).isSome

/-- Every percent sign is followed by two hexadecimal digits. -/
def Escaped (b : Bytes) : Prop :=
  ∀ before rest, b = before ++ byte '%' :: rest →
    ∃ h l tail, rest = h :: l :: tail ∧ isHex h = true ∧ isHex l = true

/-- Plus signs replaced by spaces, each escape by its byte. -/
def replaced : Bytes → Bytes
  | [] => []
  | b :: rest =>
      if b = byte '+' then byte ' ' :: replaced rest
      else if b = byte '%' then
        match rest with
        | h :: l :: rest => (hexPair h l).toList ++ replaced rest
        | _ => []
      else b :: replaced rest

/-- What `url.QueryUnescape` makes of a string, where that is a text. -/
def GoUnescapes (b : Bytes) (r : Text) : Prop := Escaped b ∧ replaced b = utf8 r

/-- Every escape whose first digit is a plus sign, written with a zero. -/
def respell : Bytes → Bytes
  | b :: p :: h :: rest =>
      if b = byte '%' ∧ p = byte '+' ∧ isHex h = true then b :: byte '0' :: h :: respell rest
      else b :: respell (p :: h :: rest)
  | short => short

/-- A percent sign is followed by a plus sign and a hexadecimal digit. -/
def Signed (b : Bytes) : Prop :=
  ∃ before h tail, b = before ++ byte '%' :: byte '+' :: h :: tail ∧ isHex h = true

/-! ## The pair of digits -/

theorem hexPair_eq_some {h l v : UInt8} (hpair : hexPair h l = some v) :
    isHex h = true ∧ isHex l = true := by
  unfold hexPair at hpair
  split at hpair
  next a b ha hb => exact ⟨by simp [isHex, ha], by simp [isHex, hb]⟩
  next => cases hpair

theorem exists_hexPair {h l : UInt8} (hh : isHex h = true) (hl : isHex l = true) :
    ∃ v, hexPair h l = some v := by
  obtain ⟨a, ha⟩ := Option.isSome_iff_exists.mp hh
  obtain ⟨b, hb⟩ := Option.isSome_iff_exists.mp hl
  exact ⟨_, by rw [hexPair, ha, hb]⟩

theorem isHex_lt {b : UInt8} (h : isHex b = true) : b.toNat < 128 := by
  obtain ⟨d, hd⟩ := Option.isSome_iff_exists.mp h
  unfold toDigit at hd
  split_ifs at hd with h₁ h₂ h₃
  · have := UInt8.le_iff_toNat_le.mp h₁.2.1
    simp at this
    omega
  · have := UInt8.le_iff_toNat_le.mp h₂.2.1
    simp at this
    omega
  · have := UInt8.le_iff_toNat_le.mp h₃.2.1
    simp at this
    omega

theorem not_isHex_plus : isHex (byte '+') = false := by decide

theorem not_isHex_percent : isHex (byte '%') = false := by decide

theorem ne_percent_of_isHex {b : UInt8} (h : isHex b = true) : b ≠ byte '%' := by
  rintro rfl
  rw [not_isHex_percent] at h
  cases h

theorem hexPair_zero (l : UInt8) : hexPair (byte '0') l = (toDigit 16 l).map UInt8.ofNat := by
  rw [hexPair, show toDigit 16 (byte '0') = some 0 by decide]
  cases toDigit 16 l with
  | none => rfl
  | some d => simp

theorem fromStrRadix_pair (h l : UInt8) :
    (fromStrRadix 256 16 [h, l]).map UInt8.ofNat =
      if h = byte '+' then hexPair (byte '0') l else hexPair h l := by
  rw [fromStrRadix, if_neg (by simp)]
  by_cases hplus : h = byte '+'
  · rw [if_pos (by simp [hplus]), if_pos hplus, List.tail_cons, Str.radixLoop_one, hexPair_zero]
  · rw [if_neg (by simpa using hplus), if_neg hplus, Str.radixLoop_two]

/-- **A sign is read as a zero**, and every other pair as Go reads it. That the pair is checked
to be a text first changes nothing: two bytes that are digits or a sign are one. -/
theorem readPair_eq (h l : UInt8) :
    readPair h l = if h = byte '+' then hexPair (byte '0') l else hexPair h l := by
  rw [readPair, ← fromStrRadix_pair]
  cases hpair : fromUtf8 [h, l] with
  | some pair => rw [Option.bind_some, ← Str.fromUtf8_eq_some_iff.mp hpair]
  | none =>
    have hnot : ∀ v, (if h = byte '+' then hexPair (byte '0') l else hexPair h l) ≠ some v := by
      intro v hv
      have hascii : h.toNat < 128 ∧ l.toNat < 128 := by
        split_ifs at hv with hplus
        · exact ⟨by rw [hplus]; decide, isHex_lt (hexPair_eq_some hv).2⟩
        · exact ⟨isHex_lt (hexPair_eq_some hv).1, isHex_lt (hexPair_eq_some hv).2⟩
      rw [Str.fromUtf8_ascii (by simpa using hascii)] at hpair
      cases hpair
    rw [fromStrRadix_pair]
    exact (Option.eq_none_iff_forall_ne_some.mpr hnot).symm

/-! ## One turn of the loop -/

section Turn

variable {pair : UInt8 → UInt8 → Option UInt8}

/-- The body of the loop, unfolded once for the turns below. -/
theorem unescapeBytes_cons (b : UInt8) (rest : Bytes) :
    unescapeBytes pair (b :: rest) =
      if b = byte '+' then (unescapeBytes pair rest).map (byte ' ' :: ·)
      else if b = byte '%' then
        match rest with
        | h :: l :: rest =>
            match pair h l with
            | some v => (unescapeBytes pair rest).map (v :: ·)
            | none => none
        | _ => none
      else (unescapeBytes pair rest).map (b :: ·) := by
  rw [unescapeBytes.eq_def]
  rfl

theorem unescapeBytes_plus (rest : Bytes) :
    unescapeBytes pair (byte '+' :: rest) = (unescapeBytes pair rest).map (byte ' ' :: ·) := by
  rw [unescapeBytes_cons]
  exact if_pos rfl

theorem unescapeBytes_other {b : UInt8} (hplus : b ≠ byte '+') (hpercent : b ≠ byte '%')
    (rest : Bytes) :
    unescapeBytes pair (b :: rest) = (unescapeBytes pair rest).map (b :: ·) := by
  rw [unescapeBytes_cons]
  exact (if_neg hplus).trans (if_neg hpercent)

theorem unescapeBytes_percent {h l v : UInt8} (hpair : pair h l = some v) (rest : Bytes) :
    unescapeBytes pair (byte '%' :: h :: l :: rest) =
      (unescapeBytes pair rest).map (v :: ·) := by
  rw [unescapeBytes_cons, if_neg (by decide), if_pos rfl]
  dsimp only
  rw [hpair]

theorem unescapeBytes_refused {h l : UInt8} (hpair : pair h l = none) (rest : Bytes) :
    unescapeBytes pair (byte '%' :: h :: l :: rest) = none := by
  rw [unescapeBytes_cons, if_neg (by decide), if_pos rfl]
  dsimp only
  rw [hpair]

theorem unescapeBytes_nil_short : unescapeBytes pair [byte '%'] = none := by
  rw [unescapeBytes_cons]
  exact (if_neg (by decide)).trans (if_pos rfl)

theorem unescapeBytes_one_short (x : UInt8) : unescapeBytes pair [byte '%', x] = none := by
  rw [unescapeBytes_cons]
  exact (if_neg (by decide)).trans (if_pos rfl)

/-- Induction along the turns of the loop. -/
theorem turn_induction {P : Bytes → Prop} (nil : P [])
    (plus : ∀ rest, P rest → P (byte '+' :: rest))
    (percent : ∀ h l rest, (∀ x ∈ [rest, l :: rest, h :: l :: rest], P x) →
      P (byte '%' :: h :: l :: rest))
    (short : P [byte '%'] ∧ ∀ x, P [byte '%', x])
    (other : ∀ b rest, b ≠ byte '+' → b ≠ byte '%' → P rest → P (b :: rest)) (b : Bytes) : P b := by
  induction hn : b.length using Nat.strong_induction_on generalizing b with
  | _ n ih =>
    subst hn
    cases b with
    | nil => exact nil
    | cons b rest =>
      have hrest : ∀ x : Bytes, x.length < rest.length + 1 → P x := fun x hx => ih _ hx x rfl
      by_cases hplus : b = byte '+'
      · subst hplus
        exact plus rest (hrest rest (Nat.lt_succ_self _))
      by_cases hpercent : b = byte '%'
      · subst hpercent
        cases rest with
        | nil => exact short.1
        | cons h rest =>
          cases rest with
          | nil => exact short.2 h
          | cons l rest =>
            refine percent h l rest fun x hx => hrest x ?_
            simp only [List.mem_cons, List.not_mem_nil, or_false] at hx
            rcases hx with rfl | rfl | rfl <;> simp only [List.length_cons] <;> omega
      · exact other b rest hplus hpercent (hrest rest (Nat.lt_succ_self _))

end Turn

/-! ## Go's rule as a scan -/

theorem escaped_nil : Escaped [] := by
  intro before rest h
  cases before <;> cases h

theorem escaped_cons_of_ne {b : UInt8} {rest : Bytes} (hb : b ≠ byte '%') :
    Escaped (b :: rest) ↔ Escaped rest := by
  constructor
  · intro h before tail htail
    exact h (b :: before) tail (by rw [htail]; rfl)
  · intro h before tail htail
    cases before with
    | nil => exact absurd (List.cons.inj htail).1 hb
    | cons x before => exact h before tail (List.cons.inj htail).2

theorem escaped_percent {h l : UInt8} {rest : Bytes} :
    Escaped (byte '%' :: h :: l :: rest) ↔ isHex h = true ∧ isHex l = true ∧ Escaped rest := by
  constructor
  · intro hesc
    obtain ⟨h', l', tail, heq, hh, hl⟩ := hesc [] _ rfl
    cases heq
    refine ⟨hh, hl, ?_⟩
    intro before tail htail
    exact hesc (byte '%' :: h :: l :: before) tail (by rw [htail]; rfl)
  · intro ⟨hh, hl, hrest⟩ before tail htail
    cases before with
    | nil =>
      cases htail
      exact ⟨h, l, rest, rfl, hh, hl⟩
    | cons x before =>
      have hdigits : Escaped (h :: l :: rest) := by
        rw [escaped_cons_of_ne (ne_percent_of_isHex hh),
          escaped_cons_of_ne (ne_percent_of_isHex hl)]
        exact hrest
      exact hdigits before tail (List.cons.inj htail).2

theorem not_escaped_short {rest : Bytes} (h : rest.length < 2) : ¬ Escaped (byte '%' :: rest) := by
  intro hesc
  obtain ⟨a, b, tail, rfl, -⟩ := hesc [] rest rfl
  exact absurd h (by simp)

theorem replaced_cons (b : UInt8) (rest : Bytes) :
    replaced (b :: rest) =
      if b = byte '+' then byte ' ' :: replaced rest
      else if b = byte '%' then
        match rest with
        | h :: l :: rest => (hexPair h l).toList ++ replaced rest
        | _ => []
      else b :: replaced rest := by
  rw [replaced.eq_def]
  rfl

theorem replaced_plus (rest : Bytes) : replaced (byte '+' :: rest) = byte ' ' :: replaced rest := by
  rw [replaced_cons]
  exact if_pos rfl

theorem replaced_other {b : UInt8} (hplus : b ≠ byte '+') (hpercent : b ≠ byte '%')
    (rest : Bytes) : replaced (b :: rest) = b :: replaced rest := by
  rw [replaced_cons]
  exact (if_neg hplus).trans (if_neg hpercent)

theorem replaced_percent {h l v : UInt8} (hpair : hexPair h l = some v) (rest : Bytes) :
    replaced (byte '%' :: h :: l :: rest) = v :: replaced rest := by
  rw [replaced_cons, if_neg (by decide), if_pos rfl]
  dsimp only
  rw [hpair]
  rfl

/-- A turn that takes one byte and gives one byte keeps the rule. -/
theorem scan_turn_iff {b rest out : Bytes} {v : UInt8}
    (hesc : Escaped b ↔ Escaped rest) (hreplaced : replaced b = v :: replaced rest)
    (ih : ∀ out, unescapeBytes hexPair rest = some out ↔ Escaped rest ∧ replaced rest = out) :
    (unescapeBytes hexPair rest).map (v :: ·) = some out ↔ Escaped b ∧ replaced b = out := by
  rw [hesc, hreplaced, Option.map_eq_some_iff]
  constructor
  · intro ⟨tail, htail, hout⟩
    have ⟨hrest, htail⟩ := (ih tail).mp htail
    exact ⟨hrest, by rw [htail, hout]⟩
  · intro ⟨hrest, hout⟩
    exact ⟨replaced rest, (ih _).mpr ⟨hrest, rfl⟩, hout⟩

/-- **The loop with Go's digits** accepts what the rule accepts, with the bytes the rule gives. -/
theorem unescapeBytes_hexPair_iff (b out : Bytes) :
    unescapeBytes hexPair b = some out ↔ Escaped b ∧ replaced b = out := by
  induction b using turn_induction generalizing out with
  | nil => exact ⟨fun h => ⟨escaped_nil, Option.some.inj h⟩, fun h => congrArg some h.2⟩
  | plus rest ih =>
    rw [unescapeBytes_plus]
    exact scan_turn_iff (escaped_cons_of_ne (by decide)) (replaced_plus rest) ih
  | percent h l rest ih =>
    cases hpair : hexPair h l with
    | some v =>
      have ⟨hh, hl⟩ := hexPair_eq_some hpair
      rw [unescapeBytes_percent hpair]
      refine scan_turn_iff ?_ (replaced_percent hpair rest) (ih rest (by simp))
      rw [escaped_percent]
      exact ⟨fun hesc => hesc.2.2, fun hesc => ⟨hh, hl, hesc⟩⟩
    | none =>
      rw [unescapeBytes_refused hpair]
      refine iff_of_false (by simp) fun ⟨hesc, _⟩ => ?_
      have ⟨hh, hl, _⟩ := escaped_percent.mp hesc
      obtain ⟨v, hv⟩ := exists_hexPair hh hl
      rw [hpair] at hv
      cases hv
  | short =>
    constructor
    · intro out
      rw [unescapeBytes_nil_short]
      exact iff_of_false (by simp) fun ⟨hesc, _⟩ => not_escaped_short (by simp) hesc
    · intro x out
      rw [unescapeBytes_one_short]
      exact iff_of_false (by simp) fun ⟨hesc, _⟩ => not_escaped_short (by simp) hesc
  | other b rest hplus hpercent ih =>
    rw [unescapeBytes_other hplus hpercent]
    exact scan_turn_iff (escaped_cons_of_ne hpercent) (replaced_other hplus hpercent rest) ih

/-! ## Signs -/

theorem respell_cons (b p h : UInt8) (rest : Bytes) :
    respell (b :: p :: h :: rest) =
      if b = byte '%' ∧ p = byte '+' ∧ isHex h = true then b :: byte '0' :: h :: respell rest
      else b :: respell (p :: h :: rest) := by
  rw [respell]

theorem respell_cons_of_ne {b : UInt8} (hb : b ≠ byte '%') (rest : Bytes) :
    respell (b :: rest) = b :: respell rest := by
  match rest with
  | [] => rfl
  | [_] => rfl
  | _ :: _ :: _ => rw [respell_cons, if_neg fun h => hb h.1]

theorem respell_signed {h : UInt8} (hh : isHex h = true) (rest : Bytes) :
    respell (byte '%' :: byte '+' :: h :: rest) =
      byte '%' :: byte '0' :: h :: respell rest := by
  rw [respell_cons, if_pos ⟨rfl, rfl, hh⟩]

/-- The byte after a percent sign that stays is the one that was there. -/
theorem respell_percent {h l : UInt8} (hpair : ¬ (h = byte '+' ∧ isHex l = true)) (rest : Bytes) :
    respell (byte '%' :: h :: l :: rest) = byte '%' :: respell (h :: l :: rest) := by
  rw [respell_cons, if_neg fun hif => hpair hif.2]

/-- A pair that Go refuses is refused after respelling what follows the percent sign: its first
byte stays, and its second changes only where the first is a percent sign itself. -/
theorem refused_respell {h l : UInt8} (hpair : hexPair h l = none) (rest : Bytes) :
    unescapeBytes hexPair (byte '%' :: respell (h :: l :: rest)) = none := by
  by_cases hh : h = byte '%'
  · have hnone : ∀ l', hexPair h l' = none := by
      intro l'
      refine Option.eq_none_iff_forall_ne_some.mpr fun v hv => ?_
      exact ne_percent_of_isHex (hexPair_eq_some hv).1 hh
    cases rest with
    | nil => exact unescapeBytes_refused (hnone l) []
    | cons x rest =>
      rw [respell_cons]
      split_ifs with hif
      · exact unescapeBytes_refused (hnone _) _
      · cases hrest : respell (l :: x :: rest) with
        | nil => rw [hh]; exact unescapeBytes_one_short _
        | cons y tail => exact unescapeBytes_refused (hnone y) tail
  · rw [respell_cons_of_ne hh]
    match rest with
    | [] => exact unescapeBytes_refused hpair []
    | [x] => exact unescapeBytes_refused hpair _
    | x :: y :: rest =>
      rw [respell_cons]
      split_ifs with hif
      · exact unescapeBytes_refused hpair _
      · exact unescapeBytes_refused hpair _

/-- **The code reads a string as Go reads it with every sign respelled.** -/
theorem unescapeBytes_readPair (b : Bytes) :
    unescapeBytes readPair b = unescapeBytes hexPair (respell b) := by
  induction b using turn_induction with
  | nil => rfl
  | plus rest ih =>
    rw [respell_cons_of_ne (by decide), unescapeBytes_plus, unescapeBytes_plus, ih]
  | percent h l rest ih =>
    have hrest := ih rest (by simp)
    have hread := readPair_eq h l
    by_cases hsigned : h = byte '+' ∧ isHex l = true
    · obtain ⟨rfl, hl⟩ := hsigned
      obtain ⟨v, hv⟩ := exists_hexPair (h := byte '0') (by decide) hl
      rw [if_pos rfl, hv] at hread
      rw [respell_signed hl, unescapeBytes_percent hread, unescapeBytes_percent hv, hrest]
    · have hread : readPair h l = hexPair h l := by
        by_cases hplus : h = byte '+'
        · have hnone : ∀ h', hexPair h' l = none := by
            intro h'
            refine Option.eq_none_iff_forall_ne_some.mpr fun v hv => ?_
            exact hsigned ⟨hplus, (hexPair_eq_some hv).2⟩
          rw [hread, if_pos hplus, hnone, hnone]
        · rw [hread, if_neg hplus]
      rw [respell_percent hsigned]
      cases hpair : hexPair h l with
      | some v =>
        have ⟨hh, hl⟩ := hexPair_eq_some hpair
        rw [hpair] at hread
        rw [respell_cons_of_ne (ne_percent_of_isHex hh),
          respell_cons_of_ne (ne_percent_of_isHex hl), unescapeBytes_percent hread,
          unescapeBytes_percent hpair, hrest]
      | none =>
        rw [hpair] at hread
        rw [unescapeBytes_refused hread, refused_respell hpair]
  | short =>
    constructor
    · exact unescapeBytes_nil_short.trans unescapeBytes_nil_short.symm
    · intro x
      exact (unescapeBytes_one_short x).trans (unescapeBytes_one_short x).symm
  | other b rest hplus hpercent ih =>
    rw [respell_cons_of_ne hpercent, unescapeBytes_other hplus hpercent,
      unescapeBytes_other hplus hpercent, ih]

theorem queryUnescape_eq_some_iff (s r : Text) :
    queryUnescape s = some r ↔ GoUnescapes (respell (utf8 s)) r := by
  rw [queryUnescape, unescapeBytes_readPair, Option.bind_eq_some_iff, GoUnescapes,
    ← unescapeBytes_hexPair_iff]
  constructor
  · intro ⟨out, hout, htext⟩
    rw [hout, Str.fromUtf8_eq_some_iff.mp htext]
  · intro h
    exact ⟨utf8 r, h, Str.fromUtf8_utf8 r⟩

theorem respell_of_not_signed {b : Bytes} (h : ¬ Signed b) : respell b = b := by
  fun_induction respell b with
  | case1 b p x rest hif ih => exact absurd ⟨[], x, rest, by rw [hif.1, hif.2.1]; rfl, hif.2.2⟩ h
  | case2 b p x rest hif ih =>
    rw [ih]
    intro ⟨before, y, tail, heq, hy⟩
    exact h ⟨b :: before, y, tail, by rw [heq]; rfl, hy⟩
  | case3 b hshort => rfl

theorem not_escaped_of_signed {b : Bytes} (h : Signed b) : ¬ Escaped b := by
  intro hesc
  obtain ⟨before, x, tail, heq, -⟩ := h
  obtain ⟨p, l, rest, hrest, hp, -⟩ := hesc before _ heq
  cases hrest
  rw [not_isHex_plus] at hp
  cases hp

/-- **When `query_unescape` follows Go.** Its answer is Go's for every string in which no percent
sign is followed by a plus sign and a hexadecimal digit. A string with such a signed escape is
refused by Go; the code refuses it only where it refuses the string with a zero for each of those
signs. -/
theorem queryUnescape_go_iff (s : Text) :
    (∀ r, queryUnescape s = some r ↔ GoUnescapes (utf8 s) r) ↔
      (Signed (utf8 s) → ∀ r, ¬ GoUnescapes (respell (utf8 s)) r) := by
  by_cases hsigned : Signed (utf8 s)
  · have hgo : ∀ r, ¬ GoUnescapes (utf8 s) r := fun r hr => not_escaped_of_signed hsigned hr.1
    constructor
    · intro h _ r hr
      exact hgo r ((h r).mp ((queryUnescape_eq_some_iff s r).mpr hr))
    · intro h r
      rw [queryUnescape_eq_some_iff]
      exact ⟨fun hr => absurd hr (h hsigned r), fun hr => absurd hr (hgo r)⟩
  · refine ⟨fun _ h => absurd h hsigned, fun _ r => ?_⟩
    rw [queryUnescape_eq_some_iff, respell_of_not_signed hsigned]

/-- `%+f` is read as the byte 15. -/
theorem sign_unescaped :
    queryUnescape ['%', '+', 'f'] = some [Char.ofNat 15] ∧
      ∀ r, ¬ GoUnescapes (utf8 ['%', '+', 'f']) r := by
  have hutf8 : utf8 ['%', '+', 'f'] = [byte '%', byte '+', byte 'f'] := by decide
  have hsigned : Signed (utf8 ['%', '+', 'f']) := ⟨[], byte 'f', [], hutf8, by decide⟩
  refine ⟨?_, fun r hr => not_escaped_of_signed hsigned hr.1⟩
  rw [queryUnescape_eq_some_iff, GoUnescapes, ← unescapeBytes_hexPair_iff, hutf8]
  decide

/-! ## What is escaped is read back -/

/-- A character that a value in a query may hold as it is: ASCII, and no separator. -/
def plain (c : Char) : Bool := c.toNat < 128 ∧ c ≠ '&' ∧ c ≠ '='

theorem plain_of_mem_escapeByte {b : UInt8} {c : Char} (h : c ∈ escapeByte b) :
    plain c = true := by
  have hall : ∀ n < 256, (escapeByte (UInt8.ofNat n)).all plain = true := by decide +kernel
  have hb := hall b.toNat b.toNat_lt
  rw [UInt8.ofNat_toNat] at hb
  exact List.all_eq_true.mp hb c h

theorem plain_of_mem_queryEscape {v : Bytes} {c : Char} (h : c ∈ queryEscape v) :
    plain c = true := by
  obtain ⟨b, -, hc⟩ := List.mem_flatMap.mp h
  exact plain_of_mem_escapeByte hc

/-- One turn of `query_escape` is undone by one turn of `query_unescape`. -/
theorem unescapeBytes_escapeByte (b : UInt8) (rest : Bytes) :
    unescapeBytes readPair ((escapeByte b).map byte ++ rest) =
      (unescapeBytes readPair rest).map (b :: ·) := by
  unfold escapeByte
  split_ifs with hplain hspace
  · have hplus : b ≠ byte '+' := by
      rintro rfl
      exact absurd hplain (by decide)
    have hpercent : b ≠ byte '%' := by
      rintro rfl
      exact absurd hplain (by decide)
    rw [List.map_singleton, Str.byte_ofNat, List.singleton_append,
      unescapeBytes_other hplus hpercent]
  · rw [hspace]
    exact unescapeBytes_plus rest
  · have hpair := Str.hexPair_hexChars Str.toDigit_upperHex b
    have hhigh : byte (Str.upperHex.getD (b.toNat / 16) '0') ≠ byte '+' := by
      intro h
      have hhex := (hexPair_eq_some hpair).1
      rw [h, not_isHex_plus] at hhex
      cases hhex
    have hread := readPair_eq (byte (Str.upperHex.getD (b.toNat / 16) '0'))
      (byte (Str.upperHex.getD (b.toNat % 16) '0'))
    rw [if_neg hhigh, hpair] at hread
    exact unescapeBytes_percent hread rest

theorem unescapeBytes_queryEscape (v : Bytes) :
    unescapeBytes readPair ((queryEscape v).map byte) = some v := by
  induction v with
  | nil => rfl
  | cons b v ih =>
    rw [queryEscape, List.flatMap_cons, List.map_append, unescapeBytes_escapeByte]
    exact congrArg (Option.map (b :: ·)) ih

/-- **A password survives the query**, whatever characters it has. -/
theorem queryUnescape_queryEscape (t : Text) : queryUnescape (queryEscape (utf8 t)) = some t := by
  have hascii : ∀ c ∈ queryEscape (utf8 t), c.toNat < 128 := by
    intro c hc
    have hplain := plain_of_mem_queryEscape hc
    simp only [plain, decide_eq_true_eq] at hplain
    exact hplain.1
  rw [queryUnescape, Str.utf8_ascii hascii, unescapeBytes_queryEscape, Option.bind_some,
    Str.fromUtf8_utf8]

end Roots.Uri

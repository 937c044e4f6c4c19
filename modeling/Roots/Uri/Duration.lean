import Mathlib.Algebra.GroupWithZero.Nat
import Mathlib.Data.List.TakeWhile
import Roots.Bytes
import Roots.Lib.Str

/-!
# Roots.Uri.Duration

`parse_go_duration` of `src/link.rs`. The scan takes the digits and then the letters at the front
of what is left, byte by byte, and adds the part to the total in milliseconds. The arithmetic is
that of `u128`, and a product or a sum that does not fit is an outcome of its own here.

Against it stands what a duration is: a list of **parts**, a decimal number and a unit each
(`Spells`), with the parts added in nanoseconds and truncated once. The two differ in three ways,
and `parseGoDuration_exact_iff` says when they do not: the two bytes of `µ` are no ASCII letters,
so that unit is never found; a large number is refused or overflows; and each part is truncated
on its own.
-/

namespace Roots.Uri

open Str (utf8 isDigit decimalValue fromStrRadix)

/-! ## The code -/

/-- How `parse_go_duration` ends without a result. -/
inductive DurationFault where
  /-- `Error::BadUri`. -/
  | badUri (s : Text)
  /-- A `u128` operation overflows. -/
  | overflow
deriving DecidableEq

/-- `u8::is_ascii_alphabetic`. -/
def isAlphabetic (b : UInt8) : Bool := (65 ≤ b ∧ b ≤ 90) ∨ (97 ≤ b ∧ b ≤ 122)

/-- The multiplier of a unit, in nanoseconds. -/
def multOf (unit : Bytes) : Option Nat :=
  if unit = utf8 "ns".toList then some 1
  else if unit = utf8 "us".toList ∨ unit = utf8 "µs".toList then some 1000
  else if unit = utf8 "ms".toList then some 1000000
  else if unit = utf8 "s".toList then some 1000000000
  else if unit = utf8 "m".toList then some 60000000000
  else if unit = utf8 "h".toList then some 3600000000000
  else none

/-- The number of values of a `u128`. -/
def u128Bound : Nat := 2 ^ 128

/-- The loop of `parse_go_duration`, with the total so far. -/
def durationLoop (s : Text) (totalMs : Nat) (rest : Bytes) : Except DurationFault Nat :=
  if rest = [] then .ok totalMs
  else
    let digits := rest.takeWhile isDigit
    if _hdigits : digits = [] then .error (.badUri s)
    else
      match fromStrRadix u128Bound 10 digits with
      | none => .error (.badUri s)
      | some n =>
          let unit := (rest.dropWhile isDigit).takeWhile isAlphabetic
          if unit = [] then .error (.badUri s)
          else
            match multOf unit with
            | none => .error (.badUri s)
            | some mult =>
                if u128Bound ≤ n * mult then .error .overflow
                else if u128Bound ≤ totalMs + n * mult / 1000000 then .error .overflow
                else
                  durationLoop s (totalMs + n * mult / 1000000)
                    ((rest.dropWhile isDigit).dropWhile isAlphabetic)
termination_by rest.length
decreasing_by
  have hsplit := congrArg List.length (List.takeWhile_append_dropWhile (p := isDigit) (l := rest))
  have hpos := List.length_pos_of_ne_nil _hdigits
  have hle := (List.dropWhile_suffix (l := rest.dropWhile isDigit) isAlphabetic).length_le
  rw [List.length_append] at hsplit
  simp only [digits] at hpos
  omega

/-- `Duration::from_millis`. -/
def fromMillis (n : Nat) : Nat := n * 1000000

/-- `u64::MAX`. -/
def u64Max : Nat := 2 ^ 64 - 1

/-- `parse_go_duration`. The flag `parsed_any` is set after the loop, because the text is not
empty. -/
def parseGoDuration (s : Text) : Except DurationFault Nat :=
  if s = [] then .error (.badUri s)
  else
    match durationLoop s 0 (utf8 s) with
    | .ok totalMs => .ok (fromMillis (min totalMs u64Max))
    | .error e => .error e

/-! ## What a duration is -/

/-- The units. -/
inductive TimeUnit where
  | ns | us | micro | ms | s | m | h
deriving DecidableEq

namespace TimeUnit

def text : TimeUnit → Text
  | ns => "ns".toList
  | us => "us".toList
  | micro => "µs".toList
  | ms => "ms".toList
  | s => "s".toList
  | m => "m".toList
  | h => "h".toList

def nanos : TimeUnit → Nat
  | ns => 1
  | us => 1000
  | micro => 1000
  | ms => 1000000
  | s => 1000000000
  | m => 60000000000
  | h => 3600000000000

end TimeUnit

/-- A decimal number and its unit. -/
structure Part where
  digits : Bytes
  unit : TimeUnit
  nonempty : digits ≠ []
  decimal : ∀ b ∈ digits, isDigit b = true

namespace Part

def bytes (p : Part) : Bytes := p.digits ++ utf8 p.unit.text

def value (p : Part) : Nat := decimalValue 0 p.digits

def nanos (p : Part) : Nat := p.value * p.unit.nanos

/-- The part in whole milliseconds. -/
def millis (p : Part) : Nat := p.nanos / 1000000

/-- What is left of it below a millisecond. -/
def remainder (p : Part) : Nat := p.nanos % 1000000

/-- The unit is written in ASCII and the number is a `u128`. -/
def Plain (p : Part) : Prop := p.unit ≠ .micro ∧ p.value < u128Bound

end Part

/-- The parts as they are written. -/
def written (parts : List Part) : Bytes := parts.flatMap Part.bytes

/-- A text is a duration of these parts. -/
def Spells (s : Text) (parts : List Part) : Prop := parts ≠ [] ∧ utf8 s = written parts

def nanosOf (parts : List Part) : Nat := (parts.map Part.nanos).sum

def millisOf (parts : List Part) : Nat := (parts.map Part.millis).sum

def remaindersOf (parts : List Part) : Nat := (parts.map Part.remainder).sum

/-- The arithmetic of the loop stays within a `u128`. -/
def Fits (totalMs : Nat) (parts : List Part) : Prop :=
  (∀ p ∈ parts, p.nanos < u128Bound) ∧ totalMs + millisOf parts < u128Bound

/-- No letter follows. -/
def Ends (rest : Bytes) : Prop := ∀ b ∈ rest.head?, isAlphabetic b = false

/-! ## One part -/

theorem unit_alphabetic {u : TimeUnit} (h : u ≠ .micro) :
    ∀ b ∈ utf8 u.text, isAlphabetic b = true := by
  cases u <;> first | exact absurd rfl h | exact List.all_eq_true.mp (by decide)

theorem unit_not_digit (u : TimeUnit) : ∀ b ∈ utf8 u.text, isDigit b = false := by
  have hnone : (utf8 u.text).any isDigit = false := by cases u <;> decide
  intro b hb
  exact Bool.eq_false_of_not_eq_true (List.any_eq_false.mp hnone b hb)

theorem unit_ne_nil (u : TimeUnit) : utf8 u.text ≠ [] := by
  cases u <;> decide

theorem multOf_unit (u : TimeUnit) : multOf (utf8 u.text) = some u.nanos := by
  cases u <;> decide

theorem unit_injective {u v : TimeUnit} (h : utf8 u.text = utf8 v.text) : u = v := by
  revert h
  cases u <;> cases v <;> decide

/-- The letters that have a multiplier are a unit. -/
theorem exists_unit {unit : Bytes} {mult : Nat} (h : multOf unit = some mult)
    (hletters : ∀ b ∈ unit, isAlphabetic b = true) :
    ∃ u : TimeUnit, u ≠ .micro ∧ unit = utf8 u.text := by
  unfold multOf at h
  split_ifs at h with h₁ h₂ h₃ h₄ h₅ h₆
  · exact ⟨.ns, by decide, h₁⟩
  · rcases h₂ with h₂ | h₂
    · exact ⟨.us, by decide, h₂⟩
    · rw [h₂] at hletters
      exact absurd (List.all_eq_true.mpr hletters) (by decide)
  · exact ⟨.ms, by decide, h₃⟩
  · exact ⟨.s, by decide, h₄⟩
  · exact ⟨.m, by decide, h₅⟩
  · exact ⟨.h, by decide, h₆⟩

/-- A letter is no digit. -/
theorem not_digit_of_alphabetic {b : UInt8} (h : isAlphabetic b = true) : isDigit b = false := by
  have hall : ∀ n < 256, isAlphabetic (UInt8.ofNat n) = true → isDigit (UInt8.ofNat n) = false := by
    decide +kernel
  have hb := hall b.toNat b.toNat_lt
  rw [UInt8.ofNat_toNat] at hb
  exact hb h

theorem alphabetic_of_digit {b : UInt8} (h : isDigit b = true) : isAlphabetic b = false := by
  cases hb : isAlphabetic b with
  | false => rfl
  | true => rw [not_digit_of_alphabetic hb] at h; cases h

theorem head_unit_not_digit (u : TimeUnit) (rest : Bytes) :
    ∀ b ∈ (utf8 u.text ++ rest).head?, isDigit b = false := by
  intro b hb
  have hne := unit_ne_nil u
  rw [List.head?_append_of_ne_nil _ hne] at hb
  exact unit_not_digit u b (List.mem_of_head? hb)

theorem written_cons (p : Part) (parts : List Part) :
    written (p :: parts) = p.digits ++ (utf8 p.unit.text ++ written parts) := by
  rw [written, List.flatMap_cons, Part.bytes, List.append_assoc]
  rfl

theorem written_cons_append (p : Part) (parts : List Part) (rest : Bytes) :
    written (p :: parts) ++ rest = p.bytes ++ (written parts ++ rest) := by
  rw [written, List.flatMap_cons, List.append_assoc]
  rfl

theorem written_cons_ne_nil (p : Part) (parts : List Part) : written (p :: parts) ≠ [] := by
  rw [written_cons]
  exact List.append_ne_nil_of_left_ne_nil p.nonempty _

/-- What is written starts with a digit, so that no letter precedes the next part. -/
theorem ends_written (parts : List Part) {rest : Bytes} (h : Ends rest) :
    Ends (written parts ++ rest) := by
  cases parts with
  | nil => exact h
  | cons p parts =>
    intro b hb
    rw [written_cons, List.append_assoc, List.head?_append_of_ne_nil _ p.nonempty] at hb
    exact alphabetic_of_digit (p.decimal b (List.mem_of_head? hb))

/-- A unit ends where the next part begins. -/
theorem unit_front (u : TimeUnit) (parts : List Part) :
    (utf8 u.text ++ written parts).takeWhile (fun b => !isDigit b) = utf8 u.text ∧
      (utf8 u.text ++ written parts).dropWhile (fun b => !isDigit b) = written parts := by
  refine Str.takeWhile_front (fun b hb => by simp [unit_not_digit u b hb]) fun b hb => ?_
  cases parts with
  | nil => cases hb
  | cons p parts =>
    rw [written_cons, List.head?_append_of_ne_nil _ p.nonempty] at hb
    simp [p.decimal b (List.mem_of_head? hb)]

theorem ends_nil : Ends [] := fun _ h => nomatch h

/-- **One turn of the loop**, on a part with an ASCII unit after which no letter comes. -/
theorem durationLoop_part (s : Text) (totalMs : Nat) {p : Part} (hunit : p.unit ≠ .micro)
    {rest : Bytes} (hrest : Ends rest) :
    durationLoop s totalMs (p.bytes ++ rest) =
      if u128Bound ≤ p.value then .error (.badUri s)
      else if u128Bound ≤ p.nanos then .error .overflow
      else if u128Bound ≤ totalMs + p.millis then .error .overflow
      else durationLoop s (totalMs + p.millis) rest := by
  have hbytes : p.bytes ++ rest = p.digits ++ (utf8 p.unit.text ++ rest) := by
    rw [Part.bytes, List.append_assoc]
  have ⟨hdigits, hafter⟩ := Str.takeWhile_front p.decimal (head_unit_not_digit p.unit rest)
  have ⟨hletters, hleft⟩ := Str.takeWhile_front (unit_alphabetic hunit) hrest
  have hvalue : fromStrRadix u128Bound 10 p.digits =
      if p.value < u128Bound then some p.value else none :=
    Str.fromStrRadix_digits (by decide) p.nonempty p.decimal
  have hne : p.digits ++ (utf8 p.unit.text ++ rest) ≠ [] :=
    List.append_ne_nil_of_left_ne_nil p.nonempty _
  rw [hbytes, durationLoop]
  simp only [hdigits, hafter, hletters, hleft, hne, p.nonempty, unit_ne_nil, hvalue,
    if_false, dif_neg, not_false_eq_true]
  by_cases hbig : u128Bound ≤ p.value
  · rw [if_pos hbig, if_neg (by omega)]
  · rw [if_neg hbig, if_pos (by omega), multOf_unit]
    rfl

/-- The scan finds a part or gives up. -/
theorem durationLoop_scan (s : Text) {rest : Bytes} (hne : rest ≠ []) :
    (∃ (p : Part) (tail : Bytes), p.unit ≠ .micro ∧ Ends tail ∧ rest = p.bytes ++ tail) ∨
      ∀ totalMs, durationLoop s totalMs rest = .error (.badUri s) := by
  by_cases hdigits : rest.takeWhile isDigit = []
  · right
    intro totalMs
    rw [durationLoop, if_neg hne]
    exact dif_pos hdigits
  cases hvalue : fromStrRadix u128Bound 10 (rest.takeWhile isDigit) with
  | none =>
    right
    intro totalMs
    rw [durationLoop]
    simp only [hne, hdigits, hvalue, if_false, dif_neg, not_false_eq_true]
  | some n =>
    cases hmult : multOf ((rest.dropWhile isDigit).takeWhile isAlphabetic) with
    | none =>
      right
      intro totalMs
      rw [durationLoop]
      simp only [hne, hdigits, hvalue, hmult, if_false, dif_neg, not_false_eq_true, ite_self]
    | some mult =>
      left
      obtain ⟨u, hu, hunit⟩ := exists_unit hmult fun b hb => List.mem_takeWhile_imp hb
      refine ⟨⟨rest.takeWhile isDigit, u, hdigits, fun b hb => List.mem_takeWhile_imp hb⟩,
        (rest.dropWhile isDigit).dropWhile isAlphabetic, hu, ?_, ?_⟩
      · intro b hb
        have hhead := List.head?_dropWhile_not isAlphabetic (rest.dropWhile isDigit)
        rw [Option.mem_def.mp hb] at hhead
        exact hhead
      · rw [Part.bytes, List.append_assoc, ← hunit, List.takeWhile_append_dropWhile,
          List.takeWhile_append_dropWhile]

/-! ## The whole text -/

theorem millisOf_cons (p : Part) (parts : List Part) :
    millisOf (p :: parts) = p.millis + millisOf parts := List.sum_cons

theorem fits_cons_iff {totalMs : Nat} {p : Part} {parts : List Part} :
    Fits totalMs (p :: parts) ↔ p.nanos < u128Bound ∧ Fits (totalMs + p.millis) parts := by
  rw [Fits, Fits, List.forall_mem_cons, millisOf_cons, Nat.add_assoc, and_assoc]

/-- A number that is too large for the type makes its part too large. -/
theorem Part.value_lt_of_nanos_lt {p : Part} (h : p.nanos < u128Bound) : p.value < u128Bound := by
  have hpos : 1 ≤ p.unit.nanos := by cases p.unit <;> decide
  exact Nat.lt_of_le_of_lt (Nat.le_mul_of_pos_right p.value hpos) h

/-- Parts that fit are added up, and the loop goes on with what follows them. -/
theorem durationLoop_written (s : Text) {totalMs : Nat} {parts : List Part}
    (hunits : ∀ p ∈ parts, p.unit ≠ .micro) (hfits : Fits totalMs parts) {rest : Bytes}
    (hrest : Ends rest) :
    durationLoop s totalMs (written parts ++ rest) =
      durationLoop s (totalMs + millisOf parts) rest := by
  induction parts generalizing totalMs with
  | nil => rfl
  | cons p parts ih =>
    have ⟨hnanos, htail⟩ := fits_cons_iff.mp hfits
    have hsum : totalMs + p.millis < u128Bound := by
      have := htail.2
      omega
    rw [written_cons_append, durationLoop_part s totalMs (hunits p List.mem_cons_self)
        (ends_written parts hrest),
      if_neg (Nat.not_le.mpr (Part.value_lt_of_nanos_lt hnanos)), if_neg (Nat.not_le.mpr hnanos),
      if_neg (Nat.not_le.mpr hsum), ih (fun q hq => hunits q (List.mem_cons_of_mem _ hq)) htail,
      millisOf_cons, Nat.add_assoc]

theorem durationLoop_nil (s : Text) (totalMs : Nat) : durationLoop s totalMs [] = .ok totalMs := by
  rw [durationLoop, if_pos rfl]

/-- What the loop accepts are ASCII parts that fit. -/
theorem durationLoop_ok {s : Text} {totalMs v : Nat} {rest : Bytes}
    (htotal : totalMs < u128Bound) (h : durationLoop s totalMs rest = .ok v) :
    ∃ parts, rest = written parts ∧ (∀ p ∈ parts, p.Plain) ∧ Fits totalMs parts ∧
      v = totalMs + millisOf parts := by
  induction hn : rest.length using Nat.strong_induction_on generalizing totalMs rest with
  | _ n ih =>
    by_cases hne : rest = []
    · subst hne
      rw [durationLoop_nil] at h
      cases h
      exact ⟨[], rfl, by simp, ⟨by simp, htotal⟩, rfl⟩
    rcases durationLoop_scan s hne with ⟨p, tail, hunit, hends, rfl⟩ | hbad
    · rw [durationLoop_part s totalMs hunit hends] at h
      split_ifs at h with hvalue hnanos hsum
      have hlen : tail.length < n := by
        rw [← hn, List.length_append, Part.bytes, List.length_append]
        have := List.length_pos_of_ne_nil p.nonempty
        omega
      obtain ⟨parts, rfl, hplain, hfits, rfl⟩ := ih _ hlen (by omega) h rfl
      refine ⟨p :: parts, rfl, ?_, fits_cons_iff.mpr ⟨by omega, hfits⟩, ?_⟩
      · exact List.forall_mem_cons.mpr ⟨⟨hunit, by omega⟩, hplain⟩
      · rw [millisOf_cons, Nat.add_assoc]
    · rw [hbad] at h
      cases h

/-- The loop overflows where leading ASCII parts do not fit. -/
theorem durationLoop_overflow {s : Text} {totalMs : Nat} {rest : Bytes}
    (htotal : totalMs < u128Bound) (h : durationLoop s totalMs rest = .error .overflow) :
    ∃ parts tail, rest = written parts ++ tail ∧ Ends tail ∧ (∀ p ∈ parts, p.Plain) ∧
      ¬ Fits totalMs parts := by
  induction hn : rest.length using Nat.strong_induction_on generalizing totalMs rest with
  | _ n ih =>
    by_cases hne : rest = []
    · subst hne
      rw [durationLoop_nil] at h
      cases h
    rcases durationLoop_scan s hne with ⟨p, tail, hunit, hends, rfl⟩ | hbad
    · rw [durationLoop_part s totalMs hunit hends] at h
      have hone : written [p] = p.bytes := List.append_nil _
      split_ifs at h with hvalue hnanos hsum
      · cases h
      · refine ⟨[p], tail, by rw [hone], hends, by simpa using ⟨hunit, by omega⟩, ?_⟩
        intro hfits
        exact absurd (hfits.1 p List.mem_cons_self) (by omega)
      · refine ⟨[p], tail, by rw [hone], hends, by simpa using ⟨hunit, by omega⟩, ?_⟩
        intro hfits
        have hlt := hfits.2
        rw [millisOf_cons] at hlt
        omega
      · have hlen : tail.length < n := by
          rw [← hn, List.length_append, Part.bytes, List.length_append]
          have := List.length_pos_of_ne_nil p.nonempty
          omega
        obtain ⟨parts, rest, rfl, hrest, hplain, hfits⟩ := ih _ hlen (by omega) h rfl
        refine ⟨p :: parts, rest, (written_cons_append p parts rest).symm, hrest, ?_, ?_⟩
        · exact List.forall_mem_cons.mpr ⟨⟨hunit, by omega⟩, hplain⟩
        · exact fun hall => hfits (fits_cons_iff.mp hall).2
    · rw [hbad] at h
      cases h

/-- Leading ASCII parts that do not fit make the loop overflow. -/
theorem durationLoop_unfit (s : Text) {totalMs : Nat} (htotal : totalMs < u128Bound)
    {parts : List Part} (hplain : ∀ p ∈ parts, p.Plain) (hfits : ¬ Fits totalMs parts)
    {rest : Bytes} (hrest : Ends rest) :
    durationLoop s totalMs (written parts ++ rest) = .error .overflow := by
  induction parts generalizing totalMs with
  | nil => exact absurd ⟨by simp, htotal⟩ hfits
  | cons p parts ih =>
    have ⟨hp, hplain⟩ := List.forall_mem_cons.mp hplain
    rw [written_cons_append, durationLoop_part s totalMs hp.1 (ends_written parts hrest),
      if_neg (Nat.not_le.mpr hp.2)]
    split_ifs with hnanos hsum
    · rfl
    · rfl
    · refine ih (Nat.not_le.mp hsum) hplain fun htail => hfits (fits_cons_iff.mpr ?_)
      exact ⟨Nat.not_le.mp hnanos, htail⟩

/-- A duration is written in one way. -/
theorem written_injective {parts parts' : List Part} (h : written parts = written parts') :
    parts = parts' := by
  induction parts generalizing parts' with
  | nil =>
    cases parts' with
    | nil => rfl
    | cons p parts' => exact absurd h.symm (written_cons_ne_nil p parts')
  | cons p parts ih =>
    cases parts' with
    | nil => exact absurd h (written_cons_ne_nil p parts)
    | cons q parts' =>
      rw [written_cons, written_cons] at h
      have ⟨hp, hpr⟩ := Str.takeWhile_front p.decimal (head_unit_not_digit p.unit (written parts))
      have ⟨hq, hqr⟩ := Str.takeWhile_front q.decimal (head_unit_not_digit q.unit (written parts'))
      have hdigits : p.digits = q.digits := by rw [← hp, h, hq]
      have hrest : utf8 p.unit.text ++ written parts = utf8 q.unit.text ++ written parts' := by
        rw [← hpr, h, hqr]
      have ⟨hpu, hpt⟩ := unit_front p.unit parts
      have ⟨hqu, hqt⟩ := unit_front q.unit parts'
      have hunit : p.unit = q.unit := unit_injective (by rw [← hpu, hrest, hqu])
      have htail : parts = parts' := ih (by rw [← hpt, hrest, hqt])
      rw [htail]
      cases p
      cases q
      cases hdigits
      cases hunit
      rfl

/-- `parse_go_duration` overflows if and only if leading ASCII parts do not fit. -/
theorem parseGoDuration_overflow_iff (s : Text) :
    parseGoDuration s = .error .overflow ↔
      ∃ parts rest, utf8 s = written parts ++ rest ∧ Ends rest ∧ (∀ p ∈ parts, p.Plain) ∧
        ¬ Fits 0 parts := by
  have hloop : durationLoop s 0 (utf8 s) = .error .overflow ↔
      ∃ parts rest, utf8 s = written parts ++ rest ∧ Ends rest ∧ (∀ p ∈ parts, p.Plain) ∧
        ¬ Fits 0 parts := by
    refine ⟨durationLoop_overflow (by decide), ?_⟩
    intro ⟨parts, rest, heq, hrest, hplain, hfits⟩
    rw [heq]
    exact durationLoop_unfit s (by decide) hplain hfits hrest
  rw [← hloop, parseGoDuration]
  by_cases hs : s = []
  · subst hs
    rw [if_pos rfl, Str.utf8_nil, durationLoop_nil]
    simp
  · rw [if_neg hs]
    cases durationLoop s 0 (utf8 s) with
    | ok v => simp
    | error e => simp

/-- `parse_go_duration` accepts ASCII parts that fit, with the sum of their milliseconds. -/
theorem parseGoDuration_ok_iff (s : Text) (d : Nat) :
    parseGoDuration s = .ok d ↔
      ∃ parts, Spells s parts ∧ (∀ p ∈ parts, p.Plain) ∧ Fits 0 parts ∧
        d = fromMillis (min (millisOf parts) u64Max) := by
  by_cases hs : s = []
  · subst hs
    refine iff_of_false (by simp [parseGoDuration]) ?_
    intro ⟨parts, ⟨hne, hwritten⟩, _⟩
    cases parts with
    | nil => exact hne rfl
    | cons p parts => exact written_cons_ne_nil p parts hwritten.symm
  constructor
  · intro h
    rw [parseGoDuration, if_neg hs] at h
    cases hloop : durationLoop s 0 (utf8 s) with
    | error e => rw [hloop] at h; cases h
    | ok v =>
      rw [hloop] at h
      cases h
      obtain ⟨parts, hwritten, hplain, hfits, hv⟩ := durationLoop_ok (by decide) hloop
      refine ⟨parts, ⟨?_, hwritten⟩, hplain, hfits, by rw [hv, Nat.zero_add]⟩
      rintro rfl
      exact hs (Str.utf8_injective hwritten)
  · intro ⟨parts, ⟨_, hwritten⟩, hplain, hfits, hd⟩
    have hloop := durationLoop_written s (fun p hp => (hplain p hp).1) hfits ends_nil
    rw [List.append_nil, ← hwritten, durationLoop_nil, Nat.zero_add] at hloop
    rw [parseGoDuration, if_neg hs, hloop, hd]

theorem nanosOf_eq (parts : List Part) :
    nanosOf parts = millisOf parts * 1000000 + remaindersOf parts := by
  induction parts with
  | nil => rfl
  | cons p parts ih =>
    have hp : p.nanos = p.millis * 1000000 + p.remainder := (Nat.div_add_mod' _ _).symm
    simp only [nanosOf, millisOf, remaindersOf, List.map_cons, List.sum_cons] at ih ⊢
    omega

/-- Truncating each part is truncating their sum unless a whole millisecond is lost below the
cap. -/
theorem truncated_eq_iff (parts : List Part) :
    min (millisOf parts) u64Max = min (nanosOf parts / 1000000) u64Max ↔
      remaindersOf parts < 1000000 ∨ u64Max ≤ millisOf parts := by
  have hnanos := nanosOf_eq parts
  omega

/-- **When durations are parsed exactly.** The parser is exact on a text if and only if

* along every run of leading parts with ASCII units and numbers below `2^128`, after which no
  letter comes, the products and the sum of the milliseconds stay below `2^128`; and
* where the text is a duration, none of its parts is written with `µs`, none of its numbers is
  `2^128` or more, and what its parts have below a millisecond adds up to less than one, or the
  milliseconds reach the cap. -/
theorem parseGoDuration_exact_iff (s : Text) :
    (parseGoDuration s ≠ .error .overflow ∧
        ∀ d, parseGoDuration s = .ok d ↔
          ∃ parts, Spells s parts ∧ d = fromMillis (min (nanosOf parts / 1000000) u64Max)) ↔
      (∀ parts rest, utf8 s = written parts ++ rest → Ends rest → (∀ p ∈ parts, p.Plain) →
          Fits 0 parts) ∧
        ∀ parts, Spells s parts → (∀ p ∈ parts, p.Plain) ∧
          (remaindersOf parts < 1000000 ∨ u64Max ≤ millisOf parts) := by
  simp only [← truncated_eq_iff]
  constructor
  · intro ⟨hover, hok⟩
    constructor
    · intro parts rest heq hrest hplain
      by_contra hfits
      exact hover ((parseGoDuration_overflow_iff s).mpr ⟨parts, rest, heq, hrest, hplain, hfits⟩)
    · intro parts hspells
      obtain ⟨parts', hspells', hplain, -, hd⟩ :=
        (parseGoDuration_ok_iff s _).mp ((hok _).mpr ⟨parts, hspells, rfl⟩)
      have hsame : parts = parts' := written_injective (hspells.2.symm.trans hspells'.2)
      subst hsame
      exact ⟨hplain, (Nat.eq_of_mul_eq_mul_right (by decide) hd).symm⟩
  · intro ⟨hfits, hspelt⟩
    constructor
    · intro h
      obtain ⟨parts, rest, heq, hrest, hplain, hnot⟩ := (parseGoDuration_overflow_iff s).mp h
      exact hnot (hfits parts rest heq hrest hplain)
    · intro d
      rw [parseGoDuration_ok_iff]
      constructor
      · intro ⟨parts, hspells, _, _, hd⟩
        exact ⟨parts, hspells, by rw [hd, (hspelt parts hspells).2]⟩
      · intro ⟨parts, hspells, hd⟩
        have ⟨hplain, hmin⟩ := hspelt parts hspells
        refine ⟨parts, hspells, hplain, hfits parts [] ?_ ends_nil hplain, by rw [hd, hmin]⟩
        rw [List.append_nil]
        exact hspells.2

/-! ## Where they differ -/

/-- `1µs`, `500us` and a number of hours that is the largest `u128`. -/
def oneMicro : Part := ⟨utf8 "1".toList, .micro, by decide, List.all_eq_true.mp (by decide)⟩

def halfMilli : Part := ⟨utf8 "500".toList, .us, by decide, List.all_eq_true.mp (by decide)⟩

def aeon : Part :=
  ⟨utf8 "340282366920938463463374607431768211455".toList, .h, by decide,
    List.all_eq_true.mp (by decide)⟩

/-- `1µs` is refused, `500us500us` is nothing rather than a millisecond, and a number of hours
that is a `u128` overflows. -/
theorem durations_inexact :
    (Spells "1µs".toList [oneMicro] ∧ ∀ d, parseGoDuration "1µs".toList ≠ .ok d) ∧
      (Spells "500us500us".toList [halfMilli, halfMilli] ∧
        nanosOf [halfMilli, halfMilli] / 1000000 = 1 ∧
        parseGoDuration "500us500us".toList = .ok 0) ∧
      parseGoDuration "340282366920938463463374607431768211455h".toList = .error .overflow := by
  have hmicro : Spells "1µs".toList [oneMicro] := ⟨by simp, by decide⟩
  have hhalves : Spells "500us500us".toList [halfMilli, halfMilli] := ⟨by simp, by decide⟩
  refine ⟨⟨hmicro, ?_⟩, ⟨hhalves, by decide, ?_⟩, ?_⟩
  · intro d hd
    obtain ⟨parts, hspells, hplain, -⟩ := (parseGoDuration_ok_iff _ d).mp hd
    have hsame := written_injective (hmicro.2.symm.trans hspells.2)
    subst hsame
    exact (hplain oneMicro List.mem_cons_self).1 rfl
  · refine (parseGoDuration_ok_iff _ 0).mpr ⟨_, hhalves, ?_, ?_, by decide⟩
    · intro p hp
      have hhalf : p = halfMilli := by simpa using hp
      rw [hhalf]
      exact ⟨by decide, by decide⟩
    · refine ⟨?_, by decide⟩
      intro p hp
      have hhalf : p = halfMilli := by simpa using hp
      rw [hhalf]
      decide
  · refine (parseGoDuration_overflow_iff _).mpr ⟨[aeon], [], by decide, ends_nil, ?_, ?_⟩
    · intro p hp
      have haeon : p = aeon := by simpa using hp
      rw [haeon]
      exact ⟨by decide, by decide⟩
    · intro hfits
      exact absurd (hfits.1 aeon List.mem_cons_self) (by decide)

end Roots.Uri

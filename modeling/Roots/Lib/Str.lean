import Mathlib.Data.List.Basic
import Mathlib.Algebra.BigOperators.Group.List.Basic

/-!
# Roots.Lib.Str

Strings as a systems language has them: a text is a list of characters, and what a program
scans are its UTF-8 bytes. Next to the encoding are the library functions such scanners call:
the lines and words of a text, parsing of unsigned numbers in a radix, with the checks for
overflow (`fromStrRadix`), and the printing and parsing of bytes as pairs of hexadecimal digits,
which is a parameter with two laws (`Hex`).
-/

namespace Str

/-! ## UTF-8 -/

/-- The bytes of a text (`as_bytes`). -/
def utf8 (t : List Char) : List UInt8 := t.flatMap String.utf8EncodeChar

/-- The text that bytes spell, if they are valid UTF-8 (`String::from_utf8`). -/
def fromUtf8 (b : List UInt8) : Option (List Char) := b.toByteArray.utf8Decode?.map Array.toList

@[simp]
theorem utf8_nil : utf8 [] = [] := rfl

@[simp]
theorem utf8_append (s t : List Char) : utf8 (s ++ t) = utf8 s ++ utf8 t := List.flatMap_append

theorem utf8_cons (c : Char) (t : List Char) : utf8 (c :: t) = String.utf8EncodeChar c ++ utf8 t :=
  List.flatMap_cons

@[simp]
theorem fromUtf8_utf8 (t : List Char) : fromUtf8 (utf8 t) = some t := by
  have h : (utf8 t).toByteArray = t.utf8Encode := rfl
  rw [fromUtf8, h, List.utf8Decode?_utf8Encode]
  rfl

theorem fromUtf8_eq_some_iff {b : List UInt8} {t : List Char} :
    fromUtf8 b = some t ↔ b = utf8 t := by
  constructor
  · intro h
    obtain ⟨a, ha, rfl⟩ := Option.map_eq_some_iff.mp h
    have hsome : b.toByteArray.utf8Decode?.isSome = true := by rw [ha]; rfl
    have hencode := ByteArray.utf8Encode_get_utf8Decode? (h := hsome)
    have hget : b.toByteArray.utf8Decode?.get hsome = a := by simp [ha]
    rw [hget] at hencode
    have hlist := congrArg (fun x => x.data.toList) hencode
    simpa [List.utf8Encode, utf8] using hlist.symm
  · intro h
    rw [h, fromUtf8_utf8]

theorem utf8_injective : Function.Injective utf8 := by
  intro s t h
  have hs := fromUtf8_utf8 s
  rw [h, fromUtf8_utf8] at hs
  exact (Option.some.inj hs).symm

/-- The byte of an ASCII character. -/
def byte (c : Char) : UInt8 := UInt8.ofNat c.toNat

theorem utf8_ascii {t : List Char} (h : ∀ c ∈ t, c.toNat < 128) : utf8 t = t.map byte := by
  induction t with
  | nil => rfl
  | cons c t ih =>
    have hc : c.val.toNat ≤ 127 := Nat.le_of_lt_succ (h c List.mem_cons_self)
    have hencode : String.utf8EncodeChar c = [byte c] := by
      rw [String.utf8EncodeChar]
      exact if_pos hc
    rw [utf8_cons, hencode, ih fun d hd => h d (List.mem_cons_of_mem _ hd)]
    rfl

theorem toNat_ofNat (b : UInt8) : (Char.ofNat b.toNat).toNat = b.toNat := by
  have hvalid : b.toNat.isValidChar := Or.inl (by have := b.toNat_lt; omega)
  rw [Char.ofNat, dif_pos hvalid]
  rfl

theorem byte_ofNat (b : UInt8) : byte (Char.ofNat b.toNat) = b := by
  rw [byte, toNat_ofNat, UInt8.ofNat_toNat]

/-- ASCII bytes are valid UTF-8. -/
theorem fromUtf8_ascii {b : List UInt8} (h : ∀ x ∈ b, x.toNat < 128) :
    fromUtf8 b = some (b.map fun x => Char.ofNat x.toNat) := by
  rw [fromUtf8_eq_some_iff, utf8_ascii, List.map_map]
  · have hid : byte ∘ (fun x : UInt8 => Char.ofNat x.toNat) = id := funext byte_ofNat
    rw [hid, List.map_id]
  · intro c hc
    obtain ⟨x, hx, rfl⟩ := List.mem_map.mp hc
    rw [toNat_ofNat]
    exact h x hx

/-! ## Scanning -/

/-- A list of which `p` holds, in front of one that `p` leaves at once. -/
theorem takeWhile_front {α : Type} {p : α → Bool} {front rest : List α}
    (hfront : ∀ b ∈ front, p b = true) (hrest : ∀ b ∈ rest.head?, p b = false) :
    (front ++ rest).takeWhile p = front ∧ (front ++ rest).dropWhile p = rest := by
  have htake : rest.takeWhile p = [] ∧ rest.dropWhile p = rest := by
    cases rest with
    | nil => exact ⟨rfl, rfl⟩
    | cons b rest =>
      have hb := hrest b rfl
      exact ⟨List.takeWhile_cons_of_neg (by simp [hb]), List.dropWhile_cons_of_neg (by simp [hb])⟩
  constructor
  · rw [List.takeWhile_append_of_pos hfront, htake.1, List.append_nil]
  · rw [List.dropWhile_append_of_pos hfront, htake.2]

/-- The texts before and after the first `c` (`split_once`). -/
def splitOnce {α : Type} [DecidableEq α] (c : α) (t : List α) : Option (List α × List α) :=
  match t.dropWhile (· ≠ c) with
  | [] => none
  | _ :: rest => some (t.takeWhile (· ≠ c), rest)

theorem splitOnce_append {α : Type} [DecidableEq α] {c : α} {front : List α} (h : c ∉ front)
    (rest : List α) : splitOnce c (front ++ c :: rest) = some (front, rest) := by
  have hfront : ∀ b ∈ front, decide (b ≠ c) = true := by
    intro b hb
    exact decide_eq_true fun heq => h (heq ▸ hb)
  have hrest : ∀ b ∈ (c :: rest).head?, decide (b ≠ c) = false := by simp
  have ⟨htake, hdrop⟩ := takeWhile_front hfront hrest
  rw [splitOnce, htake, hdrop]

/-! ## Lines and words -/

/-- Unicode's `White_Space` (`char::is_whitespace`). -/
def isWhitespace (c : Char) : Bool :=
  let n := c.toNat
  (9 ≤ n && n ≤ 13) || n = 0x20 || n = 0x85 || n = 0xa0 || n = 0x1680 ||
    (0x2000 ≤ n && n ≤ 0x200a) || n = 0x2028 || n = 0x2029 || n = 0x202f || n = 0x205f ||
    n = 0x3000

/-- The lines of a text after the part `line` of one, which is in reverse. A carriage return
belongs to the line feed after it; one that ends the text does not. -/
def linesLoop (line : List Char) : List Char → List (List Char)
  | [] => if line = [] then [] else [line.reverse]
  | c :: t =>
      if c = '\n' then
        (if line.head? = some '\r' then line.tail else line).reverse :: linesLoop [] t
      else linesLoop (c :: line) t

/-- The lines of a text, without their ends (`lines`). -/
def lines (t : List Char) : List (List Char) := linesLoop [] t

/-- The words of a text after the part `word` of one, which is in reverse. -/
def wordsLoop (word : List Char) : List Char → List (List Char)
  | [] => if word = [] then [] else [word.reverse]
  | c :: t =>
      if isWhitespace c then
        if word = [] then wordsLoop [] t else word.reverse :: wordsLoop [] t
      else wordsLoop (c :: word) t

/-- The words of a text (`split_whitespace`). -/
def splitWhitespace (t : List Char) : List (List Char) := wordsLoop [] t

example : (lines "a b\r\n\n  c ".toList).map splitWhitespace =
    [["a".toList, "b".toList], [], ["c".toList]] := by decide +kernel

/-! ## Numbers -/

/-- The value of a digit (`char::to_digit`). -/
def toDigit (radix : Nat) (b : UInt8) : Option Nat :=
  if 48 ≤ b ∧ b ≤ 57 ∧ b.toNat - 48 < radix then some (b.toNat - 48)
  else if 97 ≤ b ∧ b ≤ 122 ∧ b.toNat - 87 < radix then some (b.toNat - 87)
  else if 65 ≤ b ∧ b ≤ 90 ∧ b.toNat - 55 < radix then some (b.toNat - 55)
  else none

theorem toDigit_lt {radix : Nat} {b : UInt8} {d : Nat} (h : toDigit radix b = some d) :
    d < radix := by
  unfold toDigit at h
  split_ifs at h with h₁ h₂ h₃
  · cases h
    exact h₁.2.2
  · cases h
    exact h₂.2.2
  · cases h
    exact h₃.2.2

/-- The loop of `from_str_radix` over the digits, for a type of `bound` values. -/
def radixLoop (bound radix : Nat) (acc : Nat) : List UInt8 → Option Nat
  | [] => some acc
  | b :: rest =>
      match toDigit radix b with
      | none => none
      | some d =>
          if acc * radix + d < bound then radixLoop bound radix (acc * radix + d) rest else none

/-- `from_str_radix` of an unsigned type with `bound` values. A leading `+` is skipped, a sign
alone is refused. -/
def fromStrRadix (bound radix : Nat) (src : List UInt8) : Option Nat :=
  if src = [] ∨ src = [byte '+'] ∨ src = [byte '-'] then none
  else if src.head? = some (byte '+') then radixLoop bound radix 0 src.tail
  else radixLoop bound radix 0 src

/-- An ASCII decimal digit (`u8::is_ascii_digit`). -/
def isDigit (b : UInt8) : Bool := 48 ≤ b ∧ b ≤ 57

/-- The number that decimal digits spell. -/
def decimalValue (acc : Nat) (digits : List UInt8) : Nat :=
  digits.foldl (fun acc b => acc * 10 + (b.toNat - 48)) acc

theorem toDigit_of_isDigit {b : UInt8} (h : isDigit b = true) :
    toDigit 10 b = some (b.toNat - 48) := by
  have hb : 48 ≤ b ∧ b ≤ 57 := by simpa [isDigit] using h
  have hlt : b.toNat - 48 < 10 := by
    have := UInt8.le_iff_toNat_le.mp hb.2
    simp at this
    omega
  exact if_pos ⟨hb.1, hb.2, hlt⟩

theorem le_decimalValue (acc : Nat) (digits : List UInt8) : acc ≤ decimalValue acc digits := by
  induction digits generalizing acc with
  | nil => exact Nat.le_refl acc
  | cons b digits ih =>
    have h := ih (acc * 10 + (b.toNat - 48))
    have hstep : decimalValue acc (b :: digits) =
        decimalValue (acc * 10 + (b.toNat - 48)) digits := rfl
    omega

/-- Digits are read to their value, unless that is too large for the type: the check in each
turn of the loop is the check of the whole number, because the value only grows. -/
theorem radixLoop_digits {bound acc : Nat} {digits : List UInt8} (hacc : acc < bound)
    (h : ∀ b ∈ digits, isDigit b = true) :
    radixLoop bound 10 acc digits =
      if decimalValue acc digits < bound then some (decimalValue acc digits) else none := by
  induction digits generalizing acc with
  | nil => exact (if_pos hacc).symm
  | cons b digits ih =>
    have hvalue : decimalValue acc (b :: digits) =
        decimalValue (acc * 10 + (b.toNat - 48)) digits := rfl
    have hle := le_decimalValue (acc * 10 + (b.toNat - 48)) digits
    rw [radixLoop, toDigit_of_isDigit (h b List.mem_cons_self), hvalue]
    dsimp only
    by_cases hstep : acc * 10 + (b.toNat - 48) < bound
    · rw [if_pos hstep, ih hstep fun x hx => h x (List.mem_cons_of_mem _ hx)]
    · rw [if_neg hstep, if_neg (by omega)]

theorem fromStrRadix_digits {bound : Nat} {digits : List UInt8} (hbound : 0 < bound)
    (hne : digits ≠ []) (h : ∀ b ∈ digits, isDigit b = true) :
    fromStrRadix bound 10 digits =
      if decimalValue 0 digits < bound then some (decimalValue 0 digits) else none := by
  cases digits with
  | nil => exact absurd rfl hne
  | cons b rest =>
    have hb := h b List.mem_cons_self
    have hplus : b ≠ byte '+' := by
      rintro rfl
      exact absurd hb (by decide)
    have hminus : b ≠ byte '-' := by
      rintro rfl
      exact absurd hb (by decide)
    rw [fromStrRadix, if_neg (by simp [hplus, hminus]), if_neg (by simpa using hplus),
      radixLoop_digits hbound h]

theorem radixLoop_one (l : UInt8) : radixLoop 256 16 0 [l] = toDigit 16 l := by
  rw [radixLoop]
  cases hl : toDigit 16 l with
  | none => rfl
  | some d =>
    have hd := toDigit_lt hl
    dsimp only
    rw [if_pos (by omega), Nat.zero_mul, Nat.zero_add]
    rfl

/-! ## Pairs of hexadecimal digits -/

/-- A byte that two hexadecimal digits spell. -/
def hexPair (h l : UInt8) : Option UInt8 :=
  match toDigit 16 h, toDigit 16 l with
  | some a, some b => some (UInt8.ofNat (a * 16 + b))
  | _, _ => none

theorem radixLoop_two (h l : UInt8) :
    (radixLoop 256 16 0 [h, l]).map UInt8.ofNat = hexPair h l := by
  rw [radixLoop, hexPair]
  cases hh : toDigit 16 h with
  | none => rfl
  | some a =>
    have ha := toDigit_lt hh
    dsimp only
    rw [if_pos (by omega), Nat.zero_mul, Nat.zero_add, radixLoop]
    cases hl : toDigit 16 l with
    | none => rfl
    | some b =>
      have hb := toDigit_lt hl
      dsimp only
      rw [if_pos (by omega)]
      rfl

/-- The bytes that a text of digits, in either case, spells. -/
def hexDecode : List UInt8 → Option (List UInt8)
  | [] => some []
  | [_] => none
  | h :: l :: rest =>
      match hexPair h l, hexDecode rest with
      | some b, some bs => some (b :: bs)
      | _, _ => none

/-- The two digits of a byte, from a table of sixteen. -/
def hexChars (table : List Char) (b : UInt8) : List Char :=
  [table.getD (b.toNat / 16) '0', table.getD (b.toNat % 16) '0']

def lowerHex : List Char :=
  ['0', '1', '2', '3', '4', '5', '6', '7', '8', '9', 'a', 'b', 'c', 'd', 'e', 'f']

def upperHex : List Char :=
  ['0', '1', '2', '3', '4', '5', '6', '7', '8', '9', 'A', 'B', 'C', 'D', 'E', 'F']

/-- Two digits for each byte. -/
def hexEncode (b : List UInt8) : List Char := b.flatMap (hexChars lowerHex)

theorem toDigit_lowerHex : ∀ n < 16, toDigit 16 (byte (lowerHex.getD n '0')) = some n := by
  decide

theorem toDigit_upperHex : ∀ n < 16, toDigit 16 (byte (upperHex.getD n '0')) = some n := by
  decide

/-- The two digits that a table gives a byte are read back as that byte. -/
theorem hexPair_hexChars {table : List Char}
    (h : ∀ n < 16, toDigit 16 (byte (table.getD n '0')) = some n) (b : UInt8) :
    hexPair (byte (table.getD (b.toNat / 16) '0')) (byte (table.getD (b.toNat % 16) '0')) =
      some b := by
  have hb := b.toNat_lt
  have hsplit : b.toNat / 16 * 16 + b.toNat % 16 = b.toNat := by omega
  rw [hexPair, h _ (by omega), h _ (by omega)]
  dsimp only
  rw [hsplit, UInt8.ofNat_toNat]

theorem hexDecode_hexEncode (b : List UInt8) :
    hexDecode ((hexEncode b).map byte) = some b := by
  induction b with
  | nil => rfl
  | cons x b ih =>
    have hcons : (hexEncode (x :: b)).map byte =
        byte (lowerHex.getD (x.toNat / 16) '0') :: byte (lowerHex.getD (x.toNat % 16) '0') ::
          (hexEncode b).map byte := rfl
    rw [hcons, hexDecode, hexPair_hexChars toDigit_lowerHex, ih]

theorem mem_lowerHex_of_mem_hexEncode {b : List UInt8} {c : Char} (h : c ∈ hexEncode b) :
    c ∈ lowerHex := by
  obtain ⟨x, -, hx⟩ := List.mem_flatMap.mp h
  have hlen : lowerHex.length = 16 := rfl
  have hlt := x.toNat_lt
  have hmem : ∀ n < 16, lowerHex.getD n '0' ∈ lowerHex := by decide
  rcases List.mem_pair.mp hx with rfl | rfl
  · exact hmem _ (by omega)
  · exact hmem _ (by omega)

/-- The crate `hex`: its encoder writes lower-case digits only, and its decoder reads back what the
encoder writes. -/
class Hex where
  encode : List UInt8 → List Char
  decode : List UInt8 → Option (List UInt8)
  decode_encode : ∀ b, decode ((encode b).map byte) = some b
  mem_lowerHex : ∀ {b c}, c ∈ encode b → c ∈ lowerHex

/-- The digits as they are usually written. -/
@[reducible]
def plainHex : Hex where
  encode := hexEncode
  decode := hexDecode
  decode_encode := hexDecode_hexEncode
  mem_lowerHex := mem_lowerHex_of_mem_hexEncode

end Str

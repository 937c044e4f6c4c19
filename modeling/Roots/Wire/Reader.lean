import Roots.Wire.Uvarint

/-!
# Roots.Wire.Reader

The reading primitives the wire formats are decoded with. A decoder of the source
returns a value and the number of bytes it took, and its caller goes on with
`&buf[n..]`; here a decoder returns the value and the bytes that are left.

The operations of the source that abort the program (a slice past the end, a
`copy_from_slice` of the wrong length, a failed `expect`) stop with `Exit.panic`.
**A decoder fails in one way only, with `InvalidLength`** (`Refuses`): the slices the
source takes are always in range, because a uvarint never takes more bytes than there
are and every array is read after a length check.
-/

namespace Roots

/-- The errors of `src/error.rs` and `core/src/error.rs` that the modelled functions
return. -/
inductive Error where
  | invalidLength
  | noLink
  | timeout
  | io
deriving DecidableEq

/-- `Error::is_link`. -/
def Error.isLink : Error → Bool
  | .noLink => true
  | .io => true
  | .invalidLength => false
  | .timeout => false

/-- How a function of the source can end without a value: an `Err`, or an abort of
the program. `stuck` is not an end of the source: it is where a recursion of the model
runs out of its depth, which it never does. -/
inductive Exit where
  | err (e : Error)
  | panic
  | stuck
deriving DecidableEq

/-- An end that is no `Err`. -/
def Exit.aborts : Exit → Bool
  | .err _ => false
  | .panic => true
  | .stuck => true

/-- An `Err` that only means that a link is gone. -/
def Exit.isLink : Exit → Bool
  | .err e => e.isLink
  | .panic => false
  | .stuck => false

end Roots

namespace Roots.Wire

/-! ## Slices -/

/-- `&b[n..]`. -/
def sliceFrom (b : Bytes) (n : Nat) : Except Exit Bytes :=
  if n ≤ b.length then .ok (b.drop n) else .error .panic

/-- `copy_from_slice(&b[..n])` into a `[u8; n]`. -/
def copyArray (n : Nat) (b : Bytes) : Except Exit (List.Vector UInt8 n) :=
  match arrayOf n (b.take n) with
  | some v => .ok v
  | none => .error .panic

theorem sliceFrom_of_le {b : Bytes} {n : Nat} (h : n ≤ b.length) :
    sliceFrom b n = .ok (b.drop n) :=
  if_pos h

theorem copyArray_of_le {b : Bytes} {n : Nat} (h : n ≤ b.length) :
    copyArray n b = .ok ⟨b.take n, List.length_take_of_le h⟩ := by
  simp [copyArray, arrayOf, h]

/-- What a decoder read before its last step. -/
theorem bind_eq_ok {α β : Type} {m : Except Exit α} {f : α → Except Exit β} {b : β}
    (h : m >>= f = .ok b) : ∃ a, m = .ok a ∧ f a = .ok b := by
  cases m with
  | error e => cases h
  | ok a => exact ⟨a, rfl, h⟩

/-! ## Fields -/

/-- `read_uvarint(buf).ok_or(InvalidLength)?` and the bytes after it. -/
def takeUvarint (buf : Bytes) : Except Exit (UInt64 × Bytes) :=
  match readUvarint buf with
  | none => .error (.err .invalidLength)
  | some (v, n) => do
      let rest ← sliceFrom buf n
      return (v, rest)

/-- A `[u8; n]` read after a check that the bytes are there. -/
def takeArray (n : Nat) (buf : Bytes) : Except Exit (List.Vector UInt8 n × Bytes) :=
  if buf.length < n then .error (.err .invalidLength)
  else do
    let v ← copyArray n buf
    let rest ← sliceFrom buf n
    return (v, rest)

/-- Two keys read after one check. -/
def takeKeys (buf : Bytes) : Except Exit ((Key × Key) × Bytes) :=
  if buf.length < 2 * keyLen then .error (.err .invalidLength)
  else do
    let k ← copyArray keyLen buf
    let rest ← sliceFrom buf keyLen
    let k' ← copyArray keyLen rest
    let rest ← sliceFrom rest keyLen
    return ((k, k'), rest)

/-- The last field of a format with an exact length: nothing may follow it. -/
def exact {α : Type} (r : α × Bytes) : Except Exit α :=
  if r.2 = [] then .ok r.1 else .error (.err .invalidLength)

/-! ## Paths -/

/-- `append_path`: the ports and a zero. -/
def appendPath (path : List UInt64) : Bytes := path.flatMap uvarint ++ uvarint 0

/-- The loop of `split_path` with room for `room` more ports. -/
def splitPathLoop : Nat → Bytes → Except Exit (List UInt64 × Bytes)
  | 0, buf => do
      let (v, rest) ← takeUvarint buf
      if v = 0 then return ([], rest)
      -- The port that makes `path.len() > 128`.
      .error (.err .invalidLength)
  | room + 1, buf => do
      let (v, rest) ← takeUvarint buf
      if v = 0 then return ([], rest)
      let (ports, rest) ← splitPathLoop room rest
      return (v :: ports, rest)

/-- `split_path(buf).ok_or(InvalidLength)?` and the bytes after it. -/
def splitPath (buf : Bytes) : Except Exit (List UInt64 × Bytes) := splitPathLoop 128 buf

/-! ## Decoders only refuse -/

/-- The only way to fail is `InvalidLength`. -/
def Refuses {α : Type} (r : Except Exit α) : Prop :=
  ∀ e, r = .error e → e = .err .invalidLength

namespace Refuses

variable {α β : Type}

theorem ok (a : α) : Refuses (.ok a) := fun _ h => by cases h

theorem pure (a : α) : Refuses (Pure.pure a : Except Exit α) := fun _ h => by cases h

theorem invalid : Refuses (.error (.err .invalidLength) : Except Exit α) :=
  fun _ h => by cases h; rfl

theorem bind {m : Except Exit α} {f : α → Except Exit β} (hm : Refuses m)
    (hf : ∀ a, Refuses (f a)) : Refuses (m >>= f) := by
  cases m with
  | error e => exact fun e' h => by cases h; exact hm e rfl
  | ok a => exact hf a

theorem ite {p : Prop} [Decidable p] {m m' : Except Exit α} (hm : Refuses m)
    (hm' : Refuses m') : Refuses (if p then m else m') := by
  split
  · exact hm
  · exact hm'

end Refuses

theorem readUvarintLoop_le : ∀ (buf : Bytes) (i : Nat) (x v : UInt64) (n : Nat),
    readUvarintLoop i x buf = some (v, n) → n ≤ i + buf.length := by
  intro buf
  induction buf with
  | nil =>
    intro i x v n h
    cases h
  | cons b rest ih =>
    intro i x v n h
    rw [readUvarintLoop] at h
    split_ifs at h
    · cases h
      simp
    · have := ih _ _ _ _ h
      rw [List.length_cons]
      omega

/-- A uvarint never takes more bytes than there are. -/
theorem readUvarint_le {buf : Bytes} {v : UInt64} {n : Nat} (h : readUvarint buf = some (v, n)) :
    n ≤ buf.length := by
  simpa using readUvarintLoop_le buf 0 0 v n h

theorem takeUvarint_refuses (buf : Bytes) : Refuses (takeUvarint buf) := by
  unfold takeUvarint
  split
  · exact .invalid
  · rename_i v n h
    rw [sliceFrom_of_le (readUvarint_le h)]
    exact .ok _

theorem takeArray_refuses (n : Nat) (buf : Bytes) : Refuses (takeArray n buf) := by
  unfold takeArray
  split
  · exact .invalid
  · rename_i h
    rw [copyArray_of_le (by omega), sliceFrom_of_le (by omega)]
    exact .ok _

theorem takeKeys_refuses (buf : Bytes) : Refuses (takeKeys buf) := by
  unfold takeKeys
  split
  · exact .invalid
  · rename_i h
    have hrest : keyLen ≤ (buf.drop keyLen).length := by
      rw [List.length_drop]
      omega
    rw [copyArray_of_le (by omega), sliceFrom_of_le (by omega)]
    simp only [bind, Except.bind]
    rw [copyArray_of_le hrest, sliceFrom_of_le hrest]
    exact .ok _

theorem exact_refuses {α : Type} (r : α × Bytes) : Refuses (exact r) :=
  .ite (.ok _) .invalid

theorem splitPathLoop_refuses : ∀ (room : Nat) (buf : Bytes), Refuses (splitPathLoop room buf) := by
  intro room
  induction room with
  | zero =>
    intro buf
    exact .bind (takeUvarint_refuses buf) fun _ => .ite (.pure _) .invalid
  | succ room ih =>
    intro buf
    exact .bind (takeUvarint_refuses buf) fun r =>
      .ite (.pure _) (.bind (ih r.2) fun _ => .pure _)

theorem splitPath_refuses (buf : Bytes) : Refuses (splitPath buf) := splitPathLoop_refuses 128 buf

end Roots.Wire

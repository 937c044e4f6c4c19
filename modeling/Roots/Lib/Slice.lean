import Mathlib.Data.List.Basic

/-!
# Roots.Lib.Slice

Writing into a slice that is given: one element, a copy of another slice, or a call that gets the
rest from an index on. Past the end there is no room, and the write stops with `oob`.

A writer that goes from the front has written `done` and has `rest` before it. The lemmas
`put_done` and `Fills.within_done` say what its next write makes of `done ++ rest`.
-/

namespace Slice

variable {α β ε : Type} (oob : ε)

/-- `out[i] = a`. -/
def put (out : List α) (i : Nat) (a : α) : Except ε (List α) :=
  if i < out.length then .ok (out.set i a) else .error oob

/-- `out[i..i + src.len()].copy_from_slice(src)`. -/
def copyAt (out : List α) (i : Nat) (src : List α) : Except ε (List α) :=
  if i + src.length ≤ out.length then .ok (out.take i ++ src ++ out.drop (i + src.length))
  else .error oob

/-- A call that gets `&mut out[i..]`. -/
def within (out : List α) (i : Nat) (f : List α → Except ε (List α × β)) :
    Except ε (List α × β) :=
  if i ≤ out.length then
    match f (out.drop i) with
    | .ok (tail, b) => .ok (out.take i ++ tail, b)
    | .error e => .error e
  else .error oob

/-- The call writes `src` to the front of the slice it is given and returns `b`. If there is no
room, it stops. -/
def Fills (f : List α → Except ε (List α × β)) (src : List α) (b : β) : Prop :=
  ∀ out, f out =
    if src.length ≤ out.length then .ok (src ++ out.drop src.length, b) else .error oob

variable {oob} {done rest src : List α}

theorem put_done {a a' : α} :
    put oob (done ++ a' :: rest) done.length a = .ok (done ++ [a] ++ rest) := by
  simp [put]

theorem put_full {a : α} : put oob done done.length a = .error oob := by
  simp [put]

variable {f : List α → Except ε (List α × β)} {b : β}

theorem Fills.within_done (hf : Fills oob f src b) (done rest : List α) :
    within oob (done ++ rest) done.length f =
      if src.length ≤ rest.length then .ok (done ++ src ++ rest.drop src.length, b)
      else .error oob := by
  rw [within, if_pos (by simp), List.drop_left, List.take_left, hf]
  split_ifs
  · simp
  · rfl

/-! ## A buffer that is large enough -/

variable {out : List α}

theorem Fills.within_next (hf : Fills oob f src b) (h : (done ++ src).length ≤ out.length) :
    within oob (done ++ out.drop done.length) done.length f =
      .ok (done ++ src ++ out.drop (done ++ src).length, b) := by
  rw [List.length_append] at h
  rw [hf.within_done, List.length_drop, if_pos (by omega), List.drop_drop, List.length_append]

theorem put_next {a : α} (h : (done ++ [a]).length ≤ out.length) :
    put oob (done ++ out.drop done.length) done.length a =
      .ok (done ++ [a] ++ out.drop (done ++ [a]).length) := by
  rw [List.length_append, List.length_singleton] at h
  rw [List.drop_eq_getElem_cons h, put_done, List.length_append, List.length_singleton]

theorem copyAt_next (h : (done ++ src).length ≤ out.length) :
    copyAt oob (done ++ out.drop done.length) done.length src =
      .ok (done ++ src ++ out.drop (done ++ src).length) := by
  rw [List.length_append] at h
  have hroom : done.length + src.length ≤ (done ++ out.drop done.length).length := by
    rw [List.length_append, List.length_drop]
    omega
  rw [copyAt, if_pos hroom, List.take_left, ← List.drop_drop, List.drop_left, List.drop_drop,
    List.length_append]

end Slice

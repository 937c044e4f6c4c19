import Mathlib.Data.List.Chain
import Roots.Bytes
import Roots.Lib.Insertion

/-!
# Roots.Client.Sorting

The order of the rows that `getPeers` answers with (`client/src/admin.rs`). `sort_stable` is an
insertion sort, written out because the comparators it gets are no total orders: the difference of
two uptimes is cut to whole seconds, so that equality is not transitive.

It sorts as far as such a comparator allows (`sortStable_sorts`), and **all it asks of one is that
no two rows are greater than each other**. The three comparators of the source keep to that
(`byDefault_usable`, `byCost_usable`, `byUptime_usable`).
-/

namespace Roots.Client

/-! ## The sort -/

section

variable {α : Type}

/-- The `while` loop of `sort_stable` at `from`. A `none` is an index out of range. -/
def sink (cmp : α → α → Ordering) : Nat → List α → Option (List α)
  | 0, rows => some rows
  | i + 1, rows => do
      let a ← rows[i]?
      let b ← rows[i + 1]?
      if cmp a b = .gt then sink cmp i ((rows.set i b).set (i + 1) a) else some rows

/-- The `for` loop, with the number of rows that are left and the index of the next. -/
def sortFrom (cmp : α → α → Ordering) : Nat → Nat → List α → Option (List α)
  | 0, _, rows => some rows
  | left + 1, i, rows => do
      let rows ← sink cmp i rows
      sortFrom cmp left (i + 1) rows

/-- `sort_stable`. -/
def sortStable (cmp : α → α → Ordering) (rows : List α) : Option (List α) :=
  sortFrom cmp (rows.length - 1) 1 rows

/-- The first row need not sink below the second. -/
def Rests (cmp : α → α → Ordering) (a b : α) : Prop := cmp b a ≠ .gt

instance (cmp : α → α → Ordering) : DecidableRel (Rests cmp) :=
  fun a b => inferInstanceAs (Decidable (cmp b a ≠ .gt))

variable (cmp : α → α → Ordering)

/-- A row sinks into the rows before it as it is inserted into them from behind. -/
theorem sink_eq (x : α) (back rest : List α) :
    sink cmp back.length (back.reverse ++ x :: rest) =
      some ((back.orderedInsert (Rests cmp) x).reverse ++ rest) := by
  induction back generalizing rest with
  | nil => rfl
  | cons y back ih =>
    have hrows : (y :: back).reverse ++ x :: rest = back.reverse ++ y :: x :: rest := by simp
    have hlen : back.reverse.length = back.length := List.length_reverse
    have hfirst : (back.reverse ++ y :: x :: rest)[back.length]? = some y := by
      rw [List.getElem?_append_right (by omega), hlen, Nat.sub_self]
      rfl
    have hsecond : (back.reverse ++ y :: x :: rest)[back.length + 1]? = some x := by
      rw [List.getElem?_append_right (by omega), hlen, Nat.add_sub_cancel_left]
      rfl
    have hswap : ((back.reverse ++ y :: x :: rest).set back.length x).set (back.length + 1) y =
        back.reverse ++ x :: y :: rest := by
      rw [List.set_append_right _ _ (by omega), List.set_append_right _ _ (by omega), hlen,
        Nat.sub_self, Nat.add_sub_cancel_left]
      rfl
    rw [hrows, List.length_cons, sink, hfirst, hsecond]
    simp only [Option.bind_eq_bind, Option.bind_some]
    by_cases hgt : cmp y x = .gt
    · rw [if_pos hgt, hswap, ih, List.orderedInsert_of_not_le _ _ (not_not.mpr hgt)]
      simp
    · rw [if_neg hgt, List.orderedInsert_cons_of_le _ _ hgt]
      simp

theorem sortFrom_eq (done rest : List α) :
    sortFrom cmp rest.length done.length
        ((done.reverse.insertionSort (Rests cmp)).reverse ++ rest) =
      some ((done ++ rest).reverse.insertionSort (Rests cmp)).reverse := by
  induction rest generalizing done with
  | nil =>
    rw [List.append_nil, List.append_nil]
    rfl
  | cons x rest ih =>
    have hlen : (done.reverse.insertionSort (Rests cmp)).length = done.length := by
      rw [List.length_insertionSort, List.length_reverse]
    have hsink := sink_eq cmp x (done.reverse.insertionSort (Rests cmp)) rest
    have hih := ih (done ++ [x])
    rw [hlen] at hsink
    rw [List.reverse_append, List.length_append, List.append_assoc] at hih
    rw [List.length_cons, sortFrom, hsink]
    exact hih

/-- `sort_stable` is an insertion sort from behind. -/
theorem sortStable_eq (rows : List α) :
    sortStable cmp rows = some (rows.reverse.insertionSort (Rests cmp)).reverse := by
  cases rows with
  | nil => rfl
  | cons x rest => exact sortFrom_eq cmp [x] rest

/-- **`sort_stable` sorts for every comparator for which no two rows are greater than each other.**
It ends, its result has the rows in an order in which no row is greater than the next, and two
rows that change places were in the wrong order. If the comparator is a total preorder, this is
the stable sort. -/
theorem sortStable_sorts (husable : ∀ a b, cmp a b = .gt → cmp b a ≠ .gt) (rows : List α) :
    ∃ sorted, sortStable cmp rows = some sorted ∧ sorted.Perm rows ∧
      sorted.IsChain (fun a b => cmp a b ≠ .gt) ∧
      (∃ tagged : List (α × Nat), tagged.Perm rows.zipIdx ∧ tagged.map Prod.fst = sorted ∧
        tagged.Pairwise fun p q => p.2 < q.2 ∨ q.2 < p.2 ∧ cmp q.1 p.1 = .gt) ∧
      ((∀ a b c, cmp a b ≠ .gt → cmp b c ≠ .gt → cmp a c ≠ .gt) →
        sorted = rows.mergeSort fun a b => cmp a b ≠ .gt) := by
  -- The same sort with the places of the rows.
  obtain ⟨tagged, htagged⟩ : ∃ tagged, tagged = (rows.zipIdx.reverse.insertionSort
      fun p q => Rests cmp p.1 q.1).reverse := ⟨_, rfl⟩
  have hperm : tagged.Perm rows.zipIdx := by
    rw [htagged]
    exact (List.reverse_perm _).trans ((List.perm_insertionSort _ _).trans (List.reverse_perm _))
  have hmap : tagged.map Prod.fst = (rows.reverse.insertionSort (Rests cmp)).reverse := by
    have hsort := List.map_insertionSort (fun p q => Rests cmp p.1 q.1) (Rests cmp) Prod.fst
      rows.zipIdx.reverse fun _ _ _ _ => Iff.rfl
    rw [htagged, List.map_reverse, hsort, List.map_reverse, List.zipIdx_map_fst]
  -- In the reversed list the row with the higher place comes first.
  have hbefore : rows.zipIdx.reverse.Pairwise fun p q => q.2 < p.2 := by
    have hplace : (rows.zipIdx.map Prod.snd).Pairwise (· < ·) := by
      rw [List.zipIdx_map_snd]
      exact List.pairwise_lt_range'
    rw [List.pairwise_reverse]
    exact List.pairwise_map.mp hplace
  have hplaces : tagged.Pairwise fun p q => p.2 < q.2 ∨ q.2 < p.2 ∧ cmp q.1 p.1 = .gt := by
    rw [htagged, List.pairwise_reverse]
    refine (Insertion.pairwise_insertionSort_of hbefore).imp fun h => h.imp_right fun h => ?_
    exact ⟨h.1, not_not.mp h.2⟩
  have hchain : (tagged.map Prod.fst).IsChain fun a b => cmp a b ≠ .gt := by
    rw [hmap, List.isChain_reverse]
    exact Insertion.isChain_insertionSort (fun a b h => husable b a (not_not.mp h)) _
  refine ⟨tagged.map Prod.fst, (sortStable_eq cmp rows).trans (congrArg some hmap.symm), ?_, hchain,
    ⟨tagged, hperm, rfl, hplaces⟩, fun htrans => ?_⟩
  · rw [← List.zipIdx_map_fst 0 rows]
    exact hperm.map Prod.fst
  · have : IsTrans α fun a b => cmp a b ≠ .gt := ⟨htrans⟩
    refine Insertion.map_fst_eq_mergeSort ?_ ?_ hperm ?_ ?_
    · simpa using htrans
    · intro a b
      by_cases h : cmp a b = .gt
      · simp [husable a b h]
      · simp [h]
    · simpa using List.pairwise_map.mp hchain.pairwise
    · exact hplaces.imp fun h => h.imp_right fun h => by simp [h.2]

end

/-- Numbers that are equal if they are neighbours: 5 ties 6 and 6 ties 7, but 7 is greater
than 5. -/
def roughly (a b : Nat) : Ordering :=
  if b + 1 < a then .gt else if a + 1 < b then .lt else .eq

theorem roughly_usable (a b : Nat) (h : roughly a b = .gt) : roughly b a ≠ .gt := by
  unfold roughly at h ⊢
  split_ifs at h ⊢ <;> first | omega | simp_all

/-- Only the pair that is out of order changes places. -/
theorem sortStable_sorts_roughly :
    sortStable roughly [7, 5, 6] = some [5, 7, 6] ∧ [5, 7, 6].IsChain fun a b => roughly a b ≠ .gt := by
  obtain ⟨sorted, hsorted, -, hchain, -⟩ := sortStable_sorts roughly roughly_usable [7, 5, 6]
  have heval : sortStable roughly [7, 5, 6] = some [5, 7, 6] := by decide
  rw [heval] at hsorted
  obtain rfl := Option.some.inj hsorted
  exact ⟨heval, hchain⟩

/-! ## The comparators -/

section

/-- What the comparators do with an uptime, a float of seconds: subtract two, compare the
difference with zero, and cut it to a whole number. -/
class Seconds (F : Type) where
  sub : F → F → F
  isZero : F → Bool
  toI64 : F → Int

/-- The difference the other way is as far from zero, on the other side. -/
structure Seconds.Lawful (F : Type) [Seconds F] : Prop where
  isZero_sub : ∀ a b : F, isZero (sub a b) = isZero (sub b a)
  toI64_sub : ∀ a b : F, 0 < toI64 (sub a b) → toI64 (sub b a) ≤ 0

/-- What the comparators read of a row. -/
structure PeerEntry (F : Type) where
  inbound : Bool
  key : Bytes
  priority : UInt64
  cost : UInt64
  uptime : F

/-- `go_u64`. -/
def goU64 (a b : UInt64) : Option Ordering :=
  if a ≠ b then some (compare (a - b).toBitVec.toInt 0) else none

/-- `go_f64`. -/
def goF64 {F : Type} [Seconds F] (a b : F) : Option Ordering :=
  let d := Seconds.sub a b
  if Seconds.isZero d then none else some (compare (Seconds.toI64 d) 0)

/-- `go_key`. -/
def goKey (a b : Bytes) : Option Ordering := if a ≠ b then some (compareOfLessAndEq a b) else none

/-- The first key that tells the rows apart. -/
def firstOf : List (Option Ordering) → Ordering
  | [] => .eq
  | some d :: _ => d
  | none :: rest => firstOf rest

variable {F : Type} [Seconds F]

/-- `by_default`. -/
def byDefault (a b : PeerEntry F) : Ordering :=
  if a.inbound ≠ b.inbound then if a.inbound then .gt else .lt
  else firstOf [goKey a.key b.key, goU64 a.priority b.priority, goU64 a.cost b.cost,
    goF64 a.uptime b.uptime]

/-- `by_cost`. -/
def byCost (a b : PeerEntry F) : Ordering :=
  firstOf [goU64 a.cost b.cost, goKey a.key b.key, goU64 a.priority b.priority,
    goF64 a.uptime b.uptime]

/-- `by_uptime`. -/
def byUptime (a b : PeerEntry F) : Ordering :=
  firstOf [goF64 a.uptime b.uptime, goKey a.key b.key, goU64 a.priority b.priority,
    goU64 a.cost b.cost]

/-- Two keys of two rows, each seen from one of them. -/
structure Opposed (c d : Option Ordering) : Prop where
  none : c = none ↔ d = none
  gt : c = some .gt → d ≠ some .gt

theorem firstOf_opposed {l m : List (Option Ordering)} (h : List.Forall₂ Opposed l m) :
    firstOf l = .gt → firstOf m ≠ .gt := by
  induction h with
  | nil => simp [firstOf]
  | @cons c d l m hhead _ ih =>
    cases c with
    | none =>
      rw [hhead.none.mp rfl]
      exact ih
    | some o =>
      cases d with
      | none => cases hhead.none.mpr rfl
      | some o' =>
        intro ho ho'
        exact hhead.gt (congrArg some ho) (congrArg some ho')

/-- Of two differences that wrap, at most one is positive. -/
theorem toInt_sub_nonpos {a b : UInt64} (h : 0 < (a - b).toBitVec.toInt) :
    (b - a).toBitVec.toInt ≤ 0 := by
  rw [UInt64.toBitVec_sub, BitVec.toInt_eq_toNat_cond, BitVec.toNat_sub] at *
  have ha := a.toBitVec.isLt
  have hb := b.toBitVec.isLt
  split_ifs at h ⊢ <;> omega

theorem goU64_opposed (a b : UInt64) : Opposed (goU64 a b) (goU64 b a) where
  none := by
    simp only [goU64, ite_eq_right_iff, reduceCtorEq, imp_false, not_not, ne_eq]
    exact eq_comm
  gt := by
    simp only [goU64, ne_eq, Option.ite_none_right_eq_some, Option.some.injEq, compare_gt_iff_gt,
      not_and, not_lt, and_imp]
    intro _ h _
    exact toInt_sub_nonpos h

theorem goF64_opposed (hlaws : Seconds.Lawful F) (a b : F) : Opposed (goF64 a b) (goF64 b a) where
  none := by simp [goF64, hlaws.isZero_sub a b]
  gt := by
    simp only [goF64, hlaws.isZero_sub a b]
    split
    · simp
    · simpa [compare_gt_iff_gt] using hlaws.toI64_sub a b

theorem goKey_opposed (a b : Bytes) : Opposed (goKey a b) (goKey b a) where
  none := by
    simp only [goKey, ite_eq_right_iff, reduceCtorEq, imp_false, not_not, ne_eq]
    exact eq_comm
  gt := by
    intro h h'
    simp only [goKey, ne_eq, Option.some.injEq, compareOfLessAndEq, ite_eq_iff, reduceCtorEq,
      and_false, false_or, or_false, and_true] at h h'
    exact h.1 (List.le_antisymm h'.2.1 h.2.1)

/-- No two rows are greater than each other for `by_default`. -/
theorem byDefault_usable (hlaws : Seconds.Lawful F) (a b : PeerEntry F) :
    byDefault a b = .gt → byDefault b a ≠ .gt := by
  by_cases h : a.inbound = b.inbound
  · simp only [byDefault, h, ne_eq, not_true_eq_false, if_false]
    exact firstOf_opposed (.cons (goKey_opposed _ _) (.cons (goU64_opposed _ _)
      (.cons (goU64_opposed _ _) (.cons (goF64_opposed hlaws _ _) .nil))))
  · cases ha : a.inbound <;> cases hb : b.inbound <;> simp_all [byDefault]

theorem byCost_usable (hlaws : Seconds.Lawful F) (a b : PeerEntry F) :
    byCost a b = .gt → byCost b a ≠ .gt :=
  firstOf_opposed (.cons (goU64_opposed _ _) (.cons (goKey_opposed _ _)
    (.cons (goU64_opposed _ _) (.cons (goF64_opposed hlaws _ _) .nil))))

theorem byUptime_usable (hlaws : Seconds.Lawful F) (a b : PeerEntry F) :
    byUptime a b = .gt → byUptime b a ≠ .gt :=
  firstOf_opposed (.cons (goF64_opposed hlaws _ _) (.cons (goKey_opposed _ _)
    (.cons (goU64_opposed _ _) (.cons (goU64_opposed _ _) .nil))))

end

end Roots.Client

import Mathlib.Data.List.FinRange
import Mathlib.Data.List.Count
import Mathlib.Logic.Function.Iterate
import Roots.Lib.Assoc

/-!
# Roots.Table

The fixed-capacity map of `core/src/table.rs`: open addressing with linear probing, and
tombstones where entries were removed.

A lookup walks from the slot the hash names and stops at the first slot that was never
used. So what keeps a table sound (`Table.Sound`) is that **no never-used slot stands
between that slot and the entry**; a removal leaves a tombstone for this reason, and an
insertion may take the first tombstone it passed only once it knows the key is not further
on. A sound table holds a finite map, and all its operations are those of the map
(`Table.refines_map`), with the one difference that a new key is refused when every slot is
live.
-/

namespace Roots

/-- `NEVER_USED`, `LIVE` and `TOMBSTONE`. -/
inductive SlotState where
  | neverUsed
  | live
  | tombstone
deriving DecidableEq, Repr

/-- `TableFull`. -/
inductive TableFull where
  | full
deriving DecidableEq, Repr

/-- `Table`. -/
structure Table (K V : Type) (N : Nat) where
  slots : Fin N → Option (K × V)
  state : Fin N → SlotState
  tombs : Nat

namespace Table

variable {K V : Type} {N : Nat} [DecidableEq K]

/-! ## Operations -/

/-- `Table::new`. -/
def new : Table K V N := ⟨fun _ => none, fun _ => .neverUsed, 0⟩

/-- `Table::occupied`. -/
def occupied (t : Table K V N) : Nat := (List.finRange N).countP fun i => t.state i ≠ .neverUsed

/-- `Table::len`. -/
def len (t : Table K V N) : Nat := t.occupied - t.tombs

/-- `i = (i + 1) % N`. -/
def next (i : Fin N) : Fin N := ⟨(i + 1) % N, Nat.mod_lt _ i.pos⟩

section Loops

variable (t : Table K V N) (key : K)

/-- The loop of `get`. -/
def getLoop : Nat → Fin N → Option V
  | 0, _ => none
  | n + 1, i =>
      match t.state i with
      | .neverUsed => none
      | .live =>
          match t.slots i with
          | some (k, v) => if k = key then some v else getLoop n (next i)
          | none => getLoop n (next i)
      | .tombstone => getLoop n (next i)

/-- The loop of `contains`. -/
def containsLoop : Nat → Fin N → Bool
  | 0, _ => false
  | n + 1, i =>
      match t.state i with
      | .neverUsed => false
      | .live =>
          match t.slots i with
          | some (k, _) => if k = key then true else containsLoop n (next i)
          | none => containsLoop n (next i)
      | .tombstone => containsLoop n (next i)

/-- A new entry in a slot that is not live. -/
def put (value : V) (target : Fin N) (tombs : Nat) : Table K V N where
  slots := Function.update t.slots target (some (key, value))
  state := Function.update t.state target .live
  tombs := tombs

/-- The loop of `insert`, and what comes after it. -/
def insertLoop (value : V) : Nat → Fin N → Option (Fin N) → Except TableFull (Option V) × Table K V N
  | 0, _, firstTomb =>
      match firstTomb with
      | some tomb => (.ok none, t.put key value tomb (t.tombs - 1))
      | none => (.error .full, t)
  | n + 1, i, firstTomb =>
      match t.state i with
      | .live =>
          match t.slots i with
          | some (k, old) =>
              if k = key then
                (.ok (some old), { t with slots := Function.update t.slots i (some (key, value)) })
              else insertLoop value n (next i) firstTomb
          | none => insertLoop value n (next i) firstTomb
      | .tombstone => insertLoop value n (next i) (firstTomb.or (some i))
      | .neverUsed =>
          let target := firstTomb.getD i
          let wasTomb := t.state target = .tombstone
          (.ok none, t.put key value target (if wasTomb then t.tombs - 1 else t.tombs))

/-- The loop of `remove`. -/
def removeLoop : Nat → Fin N → Option V × Table K V N
  | 0, _ => (none, t)
  | n + 1, i =>
      match t.state i with
      | .neverUsed => (none, t)
      | .live =>
          match t.slots i with
          | some (k, v) =>
              if k = key then
                (some v,
                  { slots := Function.update t.slots i none
                    state := Function.update t.state i .tombstone
                    tombs := t.tombs + 1 })
              else removeLoop n (next i)
          | none => removeLoop n (next i)
      | .tombstone => removeLoop n (next i)

end Loops

/-- `Table::for_each`: the entries it visits, in order. -/
def forEach (t : Table K V N) : List (K × V) :=
  (List.finRange N).filterMap fun i => if t.state i = .live then t.slots i else none

section Hash

variable (hash : K → Nat) (t : Table K V N)

/-- `probe_start`. A table without slots has none, and none of its loops runs. -/
def probeStart (key : K) : Option (Fin N) :=
  if h : N = 0 then none else some ⟨hash key % N, Nat.mod_lt _ (Nat.pos_of_ne_zero h)⟩

/-- `Table::get`. -/
def get (key : K) : Option V := (probeStart hash key).bind (t.getLoop key N)

/-- `Table::contains`. -/
def contains (key : K) : Bool := (probeStart hash key).any (t.containsLoop key N)

/-- `Table::insert`. -/
def insert (key : K) (value : V) : Except TableFull (Option V) × Table K V N :=
  match probeStart hash key with
  | some i => t.insertLoop key value N i none
  | none => (.error .full, t)

/-- `Table::remove`. -/
def remove (key : K) : Option V × Table K V N :=
  match probeStart hash key with
  | some i => t.removeLoop key N i
  | none => (none, t)

/-- `Table::compact`. -/
def compact : Table K V N :=
  if t.tombs = 0 then t
  else t.forEach.foldl (fun fresh e => (fresh.insert hash e.1 e.2).2) new

end Hash

/-! ## Probing -/

/-- The slot `d` steps after `i`. -/
def walk (i : Fin N) (d : Nat) : Fin N := next^[d] i

theorem walk_succ (i : Fin N) (d : Nat) : walk i (d + 1) = next (walk i d) :=
  Function.iterate_succ_apply' _ _ _

theorem walk_val (i : Fin N) (d : Nat) : (walk i d).val = (i + d) % N := by
  induction d with
  | zero => exact (Nat.mod_eq_of_lt i.isLt).symm
  | succ d ih =>
    rw [walk_succ]
    show ((walk i d).val + 1) % N = _
    rw [ih, Nat.mod_add_mod, Nat.add_assoc]

/-- A walk of `N` slots meets every slot. -/
theorem exists_walk (i j : Fin N) : ∃ d < N, walk i d = j := by
  refine ⟨(j + (N - i)) % N, Nat.mod_lt _ i.pos, Fin.ext ?_⟩
  have hi := i.isLt
  have hj := j.isLt
  rw [walk_val, Nat.add_mod_mod, show i.val + (j + (N - i)) = j + N by omega, Nat.add_mod_right,
    Nat.mod_eq_of_lt hj]

/-! ## Soundness -/

/-- A sound table: the states say which slots hold an entry, no key has two, every entry is
reached from where its hash points, and the tombstones are counted. -/
structure Sound (hash : K → Nat) (t : Table K V N) : Prop where
  live_iff : ∀ i, t.state i = .live ↔ (t.slots i).isSome
  unique : ∀ i j k v v', t.slots i = some (k, v) → t.slots j = some (k, v') → i = j
  reached : ∀ i k v s, t.slots i = some (k, v) → probeStart hash k = some s →
    ∃ d < N, walk s d = i ∧ ∀ e < d, t.state (walk s e) ≠ .neverUsed
  tombs_eq : t.tombs = (List.finRange N).countP fun i => t.state i = .tombstone

/-- A sound table with the entries of a map. -/
structure Holds (hash : K → Nat) (t : Table K V N) (m : Assoc K V) : Prop extends Sound hash t where
  lookup_iff : ∀ k v, m.lookup k = some v ↔ ∃ i, t.slots i = some (k, v)

theorem holds_new (hash : K → Nat) : Holds hash (new : Table K V N) ∅ where
  live_iff _ := ⟨nofun, nofun⟩
  unique _ _ _ _ _ h := by cases h
  reached _ _ _ _ h := by cases h
  tombs_eq := by simp [new]
  lookup_iff k v := by simp [new]

/-! ## Slots -/

section Update

variable {α : Type}

/-- What a changed slot adds to a count and takes away from it. -/
theorem countP_update (f : Fin N → α) (i : Fin N) (x : α) (p : α → Bool) :
    (List.finRange N).countP (fun j => p (Function.update f i x j)) + (if p (f i) then 1 else 0) =
      (List.finRange N).countP (fun j => p (f j)) + if p x then 1 else 0 := by
  have hlist : ∀ l : List (Fin N), l.Nodup → i ∈ l →
      l.countP (fun j => p (Function.update f i x j)) + (if p (f i) then 1 else 0) =
        l.countP (fun j => p (f j)) + if p x then 1 else 0 := by
    intro l hnodup hmem
    induction l with
    | nil => cases hmem
    | cons j l ih =>
      obtain ⟨hj, hnodup⟩ := List.nodup_cons.mp hnodup
      rw [List.countP_cons, List.countP_cons]
      by_cases hij : i = j
      · subst hij
        have hsame : l.countP (fun j => p (Function.update f i x j)) = l.countP fun j => p (f j) :=
          List.countP_congr fun j' hj' => by
            rw [Function.update_of_ne fun heq : j' = i => hj (heq ▸ hj')]
        rw [hsame, Function.update_self]
        omega
      · have hrest := ih hnodup ((List.mem_cons.mp hmem).resolve_left hij)
        rw [Function.update_of_ne (Ne.symm hij)]
        omega
  exact hlist _ (List.nodup_finRange N) (List.mem_finRange i)

theorem slot_of_update_none {f : Fin N → Option α} {i j : Fin N} {e : α}
    (h : Function.update f i none j = some e) : j ≠ i ∧ f j = some e := by
  by_cases hj : j = i
  · subst hj
    simp at h
  · exact ⟨hj, by simpa [hj] using h⟩

end Update

/-! ## Searching -/

/-- The first `d` slots of a walk have been used and do not hold the key. -/
def Passed (t : Table K V N) (key : K) (s : Fin N) (d : Nat) : Prop :=
  ∀ e < d, t.state (walk s e) ≠ .neverUsed ∧ ∀ v, t.slots (walk s e) ≠ some (key, v)

namespace Holds

variable {hash : K → Nat} {t : Table K V N} {m : Assoc K V} (h : Holds hash t m) {key : K} {s : Fin N}
  {d : Nat}

omit [DecidableEq K] in
theorem passed_succ (hpassed : t.Passed key s d) (hused : t.state (walk s d) ≠ .neverUsed)
    (hother : ∀ v, t.slots (walk s d) ≠ some (key, v)) : t.Passed key s (d + 1) := by
  intro e he
  rcases Nat.lt_succ_iff_lt_or_eq.mp he with he | rfl
  · exact hpassed e he
  · exact ⟨hused, hother⟩

include h

theorem other_of_tombstone {i : Fin N} (hi : t.state i = .tombstone) (v : V) :
    t.slots i ≠ some (key, v) := by
  intro hslot
  rw [(h.live_iff i).mpr (by rw [hslot]; rfl)] at hi
  cases hi

/-- A slot that was never used ends the search. -/
theorem lookup_of_neverUsed (hs : probeStart hash key = some s) (hpassed : t.Passed key s d)
    (hfree : t.state (walk s d) = .neverUsed) : m.lookup key = none := by
  cases hlookup : m.lookup key with
  | none => rfl
  | some v =>
    obtain ⟨i, hi⟩ := (h.lookup_iff key v).mp hlookup
    obtain ⟨e, -, rfl, hused⟩ := h.reached i key v s hi hs
    rcases Nat.lt_trichotomy e d with hlt | rfl | hgt
    · exact absurd hi ((hpassed e hlt).2 v)
    · rw [(h.live_iff _).mpr (by rw [hi]; rfl)] at hfree
      cases hfree
    · exact absurd hfree (hused d hgt)

/-- So does the last slot. -/
theorem lookup_of_passed (hd : N ≤ d) (hpassed : t.Passed key s d) : m.lookup key = none := by
  cases hlookup : m.lookup key with
  | none => rfl
  | some v =>
    obtain ⟨i, hi⟩ := (h.lookup_iff key v).mp hlookup
    obtain ⟨e, he, rfl⟩ := exists_walk s i
    exact absurd hi ((hpassed e (he.trans_le hd)).2 v)

theorem getLoop_eq (hs : probeStart hash key = some s) {n : Nat} (hn : n + d = N)
    (hpassed : t.Passed key s d) : t.getLoop key n (walk s d) = m.lookup key := by
  induction n generalizing d with
  | zero =>
    rw [getLoop, h.lookup_of_passed (by omega) hpassed]
  | succ n ih =>
    have hrest : t.state (walk s d) ≠ .neverUsed → (∀ v, t.slots (walk s d) ≠ some (key, v)) →
        t.getLoop key n (next (walk s d)) = m.lookup key := by
      intro hused hother
      rw [← walk_succ]
      exact ih (by omega) (passed_succ hpassed hused hother)
    rw [getLoop]
    cases hstate : t.state (walk s d) with
    | neverUsed => exact (h.lookup_of_neverUsed hs hpassed hstate).symm
    | live =>
      cases hslot : t.slots (walk s d) with
      | none => exact hrest (by simp [hstate]) (by simp [hslot])
      | some e =>
        obtain ⟨k, v⟩ := e
        dsimp only
        split_ifs with hk
        · subst hk
          exact ((h.lookup_iff k v).mpr ⟨_, hslot⟩).symm
        · exact hrest (by simp [hstate]) (by simp [hslot, hk])
    | tombstone => exact hrest (by simp [hstate]) (h.other_of_tombstone hstate)

/-- Removing an entry leaves a tombstone, so the entries after it are still reached. -/
theorem clear {i : Fin N} {v : V} (hi : t.slots i = some (key, v)) :
    Holds hash
      { slots := Function.update t.slots i none
        state := Function.update t.state i .tombstone
        tombs := t.tombs + 1 } (m.erase key) where
  live_iff j := by
    by_cases hj : j = i
    · subst hj
      simp
    · simpa [hj] using h.live_iff j
  unique j j' k v v' hj hj' := by
    obtain ⟨-, hj⟩ := slot_of_update_none hj
    obtain ⟨-, hj'⟩ := slot_of_update_none hj'
    exact h.unique j j' k v v' hj hj'
  reached j k v s hj hs := by
    obtain ⟨-, hj⟩ := slot_of_update_none hj
    obtain ⟨d, hd, hwalk, hused⟩ := h.reached j k v s hj hs
    refine ⟨d, hd, hwalk, fun e he => ?_⟩
    by_cases heq : walk s e = i
    · simp [heq]
    · simpa [heq] using hused e he
  tombs_eq := by
    have hlive : t.state i = .live := (h.live_iff i).mpr (by rw [hi]; rfl)
    have hcount := countP_update t.state i .tombstone (· = .tombstone)
    simp only [hlive, reduceCtorEq, decide_false, decide_true, Bool.false_eq_true, if_false, if_true,
      Nat.add_zero] at hcount
    rw [hcount, h.tombs_eq]
  lookup_iff k v' := by
    rw [Assoc.lookup_erase_ite]
    split_ifs with hk
    · subst hk
      refine ⟨nofun, ?_⟩
      rintro ⟨j, hj⟩
      obtain ⟨hne, hj⟩ := slot_of_update_none hj
      exact absurd (h.unique j i k v' v hj hi) hne
    · rw [h.lookup_iff]
      refine exists_congr fun j => ?_
      by_cases hj : j = i
      · subst hj
        simp [hi, Ne.symm hk]
      · simp [hj]

theorem removeLoop_eq (hs : probeStart hash key = some s) {n : Nat} (hn : n + d = N)
    (hpassed : t.Passed key s d) :
    (t.removeLoop key n (walk s d)).1 = m.lookup key ∧
      Holds hash (t.removeLoop key n (walk s d)).2 (m.erase key) := by
  -- Without the key there is nothing to erase.
  have habsent : m.lookup key = none → Holds hash t (m.erase key) := by
    intro hnone
    refine { h with lookup_iff := fun k v => ?_ }
    rw [Assoc.lookup_erase_ite, ← h.lookup_iff]
    split_ifs with hk
    · subst hk
      simp [hnone]
    · rfl
  induction n generalizing d with
  | zero =>
    have hnone := h.lookup_of_passed (by omega) hpassed
    exact ⟨hnone.symm, habsent hnone⟩
  | succ n ih =>
    have hrest : t.state (walk s d) ≠ .neverUsed → (∀ v, t.slots (walk s d) ≠ some (key, v)) →
        (t.removeLoop key n (next (walk s d))).1 = m.lookup key ∧
          Holds hash (t.removeLoop key n (next (walk s d))).2 (m.erase key) := by
      intro hused hother
      rw [← walk_succ]
      exact ih (by omega) (passed_succ hpassed hused hother)
    rw [removeLoop]
    cases hstate : t.state (walk s d) with
    | neverUsed =>
      have hnone := h.lookup_of_neverUsed hs hpassed hstate
      exact ⟨hnone.symm, habsent hnone⟩
    | live =>
      cases hslot : t.slots (walk s d) with
      | none => exact hrest (by simp [hstate]) (by simp [hslot])
      | some e =>
        obtain ⟨k, v⟩ := e
        dsimp only
        split_ifs with hk
        · subst hk
          exact ⟨((h.lookup_iff k v).mpr ⟨_, hslot⟩).symm, h.clear hslot⟩
        · exact hrest (by simp [hstate]) (by simp [hslot, hk])
    | tombstone => exact hrest (by simp [hstate]) (h.other_of_tombstone hstate)

/-- The key has an entry, which gets the new value. -/
theorem replace {i : Fin N} {old : V} (hi : t.slots i = some (key, old)) (value : V) :
    Holds hash { t with slots := Function.update t.slots i (some (key, value)) }
      (m.insert key value) := by
  -- Only the value of one slot is different.
  have hslot : ∀ j k v, Function.update t.slots i (some (key, value)) j = some (k, v) →
      ∃ v', t.slots j = some (k, v') := by
    intro j k v hj
    by_cases hji : j = i
    · subst hji
      rw [Function.update_self] at hj
      cases hj
      exact ⟨old, hi⟩
    · rw [Function.update_of_ne hji] at hj
      exact ⟨v, hj⟩
  exact
    { live_iff := fun j => by
        by_cases hji : j = i
        · subst hji
          simpa [hi] using h.live_iff j
        · simpa [hji] using h.live_iff j
      unique := fun j j' k v v' hj hj' => by
        obtain ⟨u, hu⟩ := hslot j k v hj
        obtain ⟨u', hu'⟩ := hslot j' k v' hj'
        exact h.unique j j' k u u' hu hu'
      reached := fun j k v s hj hs => by
        obtain ⟨u, hu⟩ := hslot j k v hj
        exact h.reached j k u s hu hs
      tombs_eq := h.tombs_eq
      lookup_iff := fun k v => by
        rw [Assoc.lookup_insert_ite]
        split_ifs with hk
        · subst hk
          constructor
          · rintro ⟨⟩
            exact ⟨i, Function.update_self ..⟩
          · rintro ⟨j, hj⟩
            obtain ⟨u, hu⟩ := hslot j k v hj
            obtain rfl := h.unique j i k u old hu hi
            change Function.update t.slots j (some (k, value)) j = some (k, v) at hj
            rw [Function.update_self] at hj
            cases hj
            rfl
        · rw [h.lookup_iff]
          refine exists_congr fun j => ?_
          by_cases hji : j = i
          · subst hji
            simp [hi, Ne.symm hk]
          · simp [hji] }

/-- A new entry goes to a slot of its walk before which every slot has been used. -/
theorem fill (hnone : m.lookup key = none) (hs : probeStart hash key = some s) (hd : d < N)
    (hused : ∀ e < d, t.state (walk s e) ≠ .neverUsed) (hfree : t.state (walk s d) ≠ .live)
    (value : V) {tombs : Nat}
    (htombs : tombs = t.tombs - if t.state (walk s d) = .tombstone then 1 else 0) :
    Holds hash (t.put key value (walk s d) tombs) (m.insert key value) := by
  have habsent : ∀ j v, t.slots j ≠ some (key, v) := by
    intro j v hj
    rw [(h.lookup_iff key v).mpr ⟨j, hj⟩] at hnone
    cases hnone
  have hslot : ∀ j k v, Function.update t.slots (walk s d) (some (key, value)) j = some (k, v) →
      (j = walk s d ∧ k = key ∧ v = value) ∨ (j ≠ walk s d ∧ t.slots j = some (k, v)) := by
    intro j k v hj
    by_cases hji : j = walk s d
    · subst hji
      rw [Function.update_self] at hj
      cases hj
      exact .inl ⟨rfl, rfl, rfl⟩
    · rw [Function.update_of_ne hji] at hj
      exact .inr ⟨hji, hj⟩
  have hmore : ∀ j, t.state j ≠ .neverUsed →
      Function.update t.state (walk s d) .live j ≠ .neverUsed := by
    intro j hj
    by_cases hji : j = walk s d
    · simp [hji]
    · simpa [hji] using hj
  exact
    { live_iff := fun j => by
        by_cases hji : j = walk s d
        · subst hji
          simp [put]
        · simpa [put, hji] using h.live_iff j
      unique := fun j j' k v v' hj hj' => by
        rcases hslot j k v hj with ⟨rfl, rfl, -⟩ | ⟨-, hj⟩ <;>
          rcases hslot j' k v' hj' with ⟨hj', hkey, -⟩ | ⟨-, hj'⟩
        · exact hj'.symm
        · exact absurd hj' (habsent j' v')
        · exact absurd (hkey ▸ hj) (habsent j v)
        · exact h.unique j j' k v v' hj hj'
      reached := fun j k v s' hj hs' => by
        rcases hslot j k v hj with ⟨rfl, rfl, -⟩ | ⟨-, hj⟩
        · cases hs.symm.trans hs'
          exact ⟨d, hd, rfl, fun e he => hmore _ (hused e he)⟩
        · obtain ⟨e, he, hwalk, hbefore⟩ := h.reached j k v s' hj hs'
          exact ⟨e, he, hwalk, fun e' he' => hmore _ (hbefore e' he')⟩
      tombs_eq := by
        have hcount := countP_update t.state (walk s d) .live (· = .tombstone)
        simp only [reduceCtorEq, decide_false, Bool.false_eq_true, if_false, Nat.add_zero,
          decide_eq_true_eq, ← h.tombs_eq] at hcount
        show tombs = _
        rw [htombs, ← hcount, Nat.add_sub_cancel]
        rfl
      lookup_iff := fun k v => by
        rw [Assoc.lookup_insert_ite]
        split_ifs with hk
        · subst hk
          constructor
          · rintro ⟨⟩
            exact ⟨walk s d, Function.update_self ..⟩
          · rintro ⟨j, hj⟩
            rcases hslot j k v hj with ⟨-, -, rfl⟩ | ⟨-, hj⟩
            · rfl
            · exact absurd hj (habsent j v)
        · rw [h.lookup_iff]
          constructor
          · rintro ⟨j, hj⟩
            have hji : j ≠ walk s d := by
              rintro rfl
              exact hfree ((h.live_iff _).mpr (by rw [hj]; rfl))
            exact ⟨j, (Function.update_of_ne hji ..).trans hj⟩
          · rintro ⟨j, hj⟩
            rcases hslot j k v hj with ⟨-, hkey, -⟩ | ⟨-, hj⟩
            · exact absurd hkey hk
            · exact ⟨j, hj⟩ }

/-! ## Counting -/

theorem nodup_forEach : t.forEach.Nodup := by
  refine (List.nodup_finRange N).filterMap fun i j e hi hj => ?_
  obtain ⟨k, v⟩ := e
  rw [Option.mem_def] at hi hj
  split_ifs at hi hj
  exact h.unique i j k v v hi hj

theorem mem_forEach {k : K} {v : V} : (k, v) ∈ t.forEach ↔ m.lookup k = some v := by
  rw [h.lookup_iff, forEach, List.mem_filterMap]
  constructor
  · rintro ⟨i, -, hi⟩
    split_ifs at hi
    exact ⟨i, hi⟩
  · rintro ⟨i, hi⟩
    have hlive : t.state i = .live := (h.live_iff i).mpr (by rw [hi]; rfl)
    exact ⟨i, List.mem_finRange i, by rw [if_pos hlive, hi]⟩

/-- `for_each` visits the entries of the map, each once. -/
theorem forEach_perm : t.forEach.Perm m.toList := by
  have hnodup : m.toList.Nodup := by
    refine List.Nodup.of_map Prod.fst ?_
    rw [Assoc.toList, List.map_map]
    exact m.nodupKeys
  refine (List.perm_ext_iff_of_nodup h.nodup_forEach hnodup).mpr fun e => ?_
  obtain ⟨k, v⟩ := e
  rw [h.mem_forEach, Assoc.mem_toList]

/-- The entries are the live slots. -/
theorem size_eq : m.entries.length = (List.finRange N).countP fun i => t.state i = .live := by
  have hlen := h.forEach_perm.length_eq
  rw [Assoc.toList, List.length_map] at hlen
  rw [← hlen, forEach, List.length_filterMap_eq_countP]
  refine List.countP_congr fun i _ => ?_
  by_cases hlive : t.state i = .live
  · simp [hlive, (h.live_iff i).mp hlive]
  · simp [hlive]

theorem len_eq : t.len = m.entries.length := by
  have hcount : t.occupied =
      (List.finRange N).countP (fun i => t.state i = .live) +
        (List.finRange N).countP fun i => t.state i = .tombstone := by
    rw [occupied]
    induction List.finRange N with
    | nil => rfl
    | cons i l ih =>
      simp only [List.countP_cons, ih]
      cases t.state i <;> simp <;> omega
  rw [len, hcount, ← h.tombs_eq, Nat.add_sub_cancel, h.size_eq]

/-- A slot that is not live is room for a key. -/
theorem size_lt {i : Fin N} (hi : t.state i ≠ .live) : m.entries.length < N := by
  have hlt : (List.finRange N).countP (fun i => t.state i = .live) < (List.finRange N).length :=
    List.countP_lt_length_iff.mpr ⟨i, List.mem_finRange i, by simpa using hi⟩
  rwa [List.length_finRange, ← h.size_eq] at hlt

theorem size_of_live (hlive : ∀ i, t.state i = .live) : m.entries.length = N := by
  rw [h.size_eq, List.countP_eq_length.mpr (by simpa using hlive), List.length_finRange]

/-! ## Insertion -/

theorem insertLoop_eq (hs : probeStart hash key = some s) (value : V) {n : Nat} (hn : n + d = N)
    (hpassed : t.Passed key s d) (firstTomb : Option (Fin N))
    (htomb : ∀ i, firstTomb = some i → t.state i = .tombstone ∧ ∃ e < d, walk s e = i)
    (hnone : firstTomb = none → ∀ e < d, t.state (walk s e) ≠ .tombstone) :
    (key ∈ m ∨ m.entries.length < N →
      (t.insertLoop key value n (walk s d) firstTomb).1 = .ok (m.lookup key) ∧
        Holds hash (t.insertLoop key value n (walk s d) firstTomb).2 (m.insert key value)) ∧
    (¬ (key ∈ m ∨ m.entries.length < N) →
      t.insertLoop key value n (walk s d) firstTomb = (.error .full, t)) ∧
    (t.insertLoop key value n (walk s d) firstTomb).2.tombs ≤ t.tombs := by
  induction n generalizing d firstTomb with
  | zero =>
    have hlookup := h.lookup_of_passed (by omega) hpassed
    cases firstTomb with
    | some tomb =>
      rw [insertLoop]
      obtain ⟨hstate, e, he, rfl⟩ := htomb tomb rfl
      refine ⟨fun _ => ⟨by rw [hlookup], ?_⟩, fun hfull => ?_, Nat.sub_le _ _⟩
      · exact h.fill hlookup hs (by omega) (fun e' he' => (hpassed e' (by omega)).1) (by simp [hstate])
          value (by rw [if_pos hstate])
      · exact absurd (.inr (h.size_lt (i := walk s e) (by simp [hstate]))) hfull
    | none =>
      have hlive : ∀ i, t.state i = .live := by
        intro i
        obtain ⟨e, he, rfl⟩ := exists_walk s i
        have hused := (hpassed e (by omega)).1
        have hno := hnone rfl e (by omega)
        cases hstate : t.state (walk s e) with
        | neverUsed => exact absurd hstate hused
        | live => rfl
        | tombstone => exact absurd hstate hno
      rw [insertLoop]
      refine ⟨fun hroom => ?_, fun _ => rfl, le_refl _⟩
      rcases hroom with hmem | hlt
      · obtain ⟨v, hv⟩ := Assoc.mem_iff_lookup.mp hmem
        rw [hlookup] at hv
        cases hv
      · rw [h.size_of_live hlive] at hlt
        exact absurd hlt (Nat.lt_irrefl _)
  | succ n ih =>
    rw [insertLoop]
    cases hstate : t.state (walk s d) with
    | neverUsed =>
      have hlookup := h.lookup_of_neverUsed hs hpassed hstate
      have hroom : m.entries.length < N := h.size_lt (i := walk s d) (by simp [hstate])
      refine ⟨fun _ => ⟨by rw [hlookup], ?_⟩, fun hfull => absurd (.inr hroom) hfull, ?_⟩
      · cases firstTomb with
        | some tomb =>
          obtain ⟨htombstone, e, he, rfl⟩ := htomb tomb rfl
          exact h.fill hlookup hs (by omega) (fun e' he' => (hpassed e' (by omega)).1)
            (by simp [htombstone]) value (by simp [htombstone])
        | none =>
          exact h.fill hlookup hs (by omega) (fun e' he' => (hpassed e' he').1) (by simp [hstate])
            value (by simp [hstate])
      · show (if _ then t.tombs - 1 else t.tombs) ≤ t.tombs
        split_ifs
        · exact Nat.sub_le _ _
        · exact le_refl _
    | live =>
      have hrest : (∀ v, t.slots (walk s d) ≠ some (key, v)) → _ := fun hother =>
        ih (d := d + 1) (by omega) (passed_succ hpassed (by simp [hstate]) hother) firstTomb
          (fun i hi => by
            obtain ⟨htombstone, e, he, hwalk⟩ := htomb i hi
            exact ⟨htombstone, e, by omega, hwalk⟩)
          (fun hno e he => by
            rcases Nat.lt_succ_iff_lt_or_eq.mp he with he | rfl
            · exact hnone hno e he
            · simp [hstate])
      rw [walk_succ] at hrest
      cases hslot : t.slots (walk s d) with
      | none => exact hrest (by simp [hslot])
      | some e =>
        obtain ⟨k, old⟩ := e
        dsimp only
        split_ifs with hk
        · subst hk
          have hlookup := (h.lookup_iff k old).mpr ⟨_, hslot⟩
          refine ⟨fun _ => ⟨by rw [hlookup], h.replace hslot value⟩, fun hfull => ?_, le_refl _⟩
          exact absurd (.inl (Assoc.mem_iff_lookup.mpr ⟨old, hlookup⟩)) hfull
        · exact hrest (by simp [hslot, hk])
    | tombstone =>
      have hrest := ih (d := d + 1) (by omega)
        (passed_succ hpassed (by simp [hstate]) (h.other_of_tombstone hstate))
        (firstTomb.or (some (walk s d)))
        (fun i hi => by
          cases firstTomb with
          | some tomb =>
            cases hi
            obtain ⟨htombstone, e, he, hwalk⟩ := htomb i rfl
            exact ⟨htombstone, e, by omega, hwalk⟩
          | none =>
            cases hi
            exact ⟨hstate, d, by omega, rfl⟩)
        (fun hno => by cases firstTomb <;> cases hno)
      rwa [walk_succ] at hrest

/-! ## The operations -/

theorem of_lookup {m' : Assoc K V} (hsame : ∀ k, m'.lookup k = m.lookup k) : Holds hash t m' :=
  { h with lookup_iff := fun k v => by rw [hsame, h.lookup_iff] }

omit h [DecidableEq K] in
theorem no_slots (hs : probeStart (N := N) hash key = none) : N = 0 := by
  unfold probeStart at hs
  split_ifs at hs
  assumption

theorem size_le : m.entries.length ≤ N := by
  rw [h.size_eq]
  exact List.countP_le_length.trans (by rw [List.length_finRange])

theorem lookup_of_no_slots (hs : probeStart (N := N) hash key = none) : m.lookup key = none := by
  cases hlookup : m.lookup key with
  | none => rfl
  | some v =>
    obtain ⟨i, -⟩ := (h.lookup_iff key v).mp hlookup
    exact absurd i.pos (by rw [no_slots hs]; exact Nat.lt_irrefl 0)

theorem get_eq (key : K) : t.get hash key = m.lookup key := by
  rw [get]
  cases hs : probeStart hash key with
  | none => rw [h.lookup_of_no_slots hs]; rfl
  | some s => exact h.getLoop_eq hs (d := 0) rfl (fun _ he => absurd he (Nat.not_lt_zero _))

theorem insert_eq (key : K) (value : V) :
    (key ∈ m ∨ m.entries.length < N →
      (t.insert hash key value).1 = .ok (m.lookup key) ∧
        Holds hash (t.insert hash key value).2 (m.insert key value)) ∧
    (¬ (key ∈ m ∨ m.entries.length < N) → t.insert hash key value = (.error .full, t)) ∧
    (t.insert hash key value).2.tombs ≤ t.tombs := by
  rw [insert]
  cases hs : probeStart hash key with
  | none =>
    refine ⟨fun hroom => ?_, fun _ => rfl, le_refl _⟩
    rcases hroom with hmem | hlt
    · obtain ⟨v, hv⟩ := Assoc.mem_iff_lookup.mp hmem
      rw [h.lookup_of_no_slots hs] at hv
      cases hv
    · exact absurd hlt (by rw [no_slots hs]; exact Nat.not_lt_zero _)
  | some s =>
    exact h.insertLoop_eq hs value (d := 0) rfl (fun _ he => absurd he (Nat.not_lt_zero _)) none
      nofun (fun _ _ he => absurd he (Nat.not_lt_zero _))

theorem remove_eq (key : K) :
    (t.remove hash key).1 = m.lookup key ∧ Holds hash (t.remove hash key).2 (m.erase key) := by
  rw [remove]
  cases hs : probeStart hash key with
  | none =>
    have hnone := h.lookup_of_no_slots hs
    refine ⟨hnone.symm, h.of_lookup fun k => ?_⟩
    rw [Assoc.lookup_erase_ite]
    split_ifs with hk
    · rw [hk, hnone]
    · rfl
  | some s => exact h.removeLoop_eq hs (d := 0) rfl (fun _ he => absurd he (Nat.not_lt_zero _))

/-- Entries with new keys, for which there is room, are all taken. -/
theorem foldl_insert (l : List (K × V)) (hnodup : (l.map Prod.fst).Nodup)
    (hnew : ∀ e ∈ l, e.1 ∉ m) (hroom : l.length + m.entries.length ≤ N) (hclean : t.tombs = 0) :
    ∃ m', Holds hash (l.foldl (fun fresh e => (fresh.insert hash e.1 e.2).2) t) m' ∧
      (∀ k v, m'.lookup k = some v ↔ (k, v) ∈ l ∨ m.lookup k = some v) ∧
      (l.foldl (fun fresh e => (fresh.insert hash e.1 e.2).2) t).tombs = 0 := by
  induction l generalizing t m with
  | nil => exact ⟨m, h, by simp, hclean⟩
  | cons e l ih =>
    obtain ⟨k, v⟩ := e
    rw [List.map_cons, List.nodup_cons] at hnodup
    have hk : k ∉ m := hnew (k, v) (List.mem_cons_self ..)
    have hsize : (m.insert k v).entries.length = m.entries.length + 1 := by
      rw [AList.entries_insert_of_notMem hk, List.length_cons]
    obtain ⟨htaken, -, htombs⟩ := h.insert_eq k v
    rw [List.length_cons] at hroom
    obtain ⟨m', hm', hlookup, hclean'⟩ := ih (htaken (.inr (by omega))).2 hnodup.2
      (fun e he hmem => by
        rcases AList.mem_insert _ |>.mp hmem with heq | hmem
        · exact hnodup.1 (List.mem_map.mpr ⟨e, he, heq⟩)
        · exact hnew e (List.mem_cons_of_mem _ he) hmem)
      (by omega) (by omega)
    refine ⟨m', hm', fun k' v' => ?_, hclean'⟩
    rw [hlookup, Assoc.lookup_insert_ite, List.mem_cons, Prod.mk.injEq]
    split_ifs with heq
    · subst heq
      have hnone : m.lookup k' = none := AList.lookup_eq_none.mpr hk
      simp [hnone, or_comm, eq_comm]
    · simp [heq]

/-- `compact` keeps the map and leaves no tombstone. -/
theorem compact_eq : Holds hash (t.compact hash) m ∧ (t.compact hash).tombs = 0 := by
  rw [compact]
  split_ifs with hclean
  · exact ⟨h, hclean⟩
  · have hkeys : (t.forEach.map Prod.fst).Nodup := by
      have hperm := h.forEach_perm.map Prod.fst
      rw [Assoc.toList, List.map_map] at hperm
      exact hperm.nodup_iff.mpr m.nodupKeys
    have hroom : t.forEach.length + (∅ : Assoc K V).entries.length ≤ N := by
      have hlen := h.forEach_perm.length_eq
      rw [Assoc.toList, List.length_map] at hlen
      rw [hlen]
      exact h.size_le
    obtain ⟨m', hm', hlookup, hclean'⟩ := (holds_new hash).foldl_insert t.forEach hkeys
      (by simp) hroom rfl
    refine ⟨hm'.of_lookup fun k => Option.ext fun v => ?_, hclean'⟩
    rw [hlookup, h.mem_forEach]
    simp

theorem not_tombstone (hclean : t.tombs = 0) (i : Fin N) : t.state i ≠ .tombstone := by
  have hcount := h.tombs_eq
  rw [hclean, eq_comm, List.countP_eq_zero] at hcount
  simpa using hcount i (List.mem_finRange i)

end Holds

theorem containsLoop_eq (t : Table K V N) (key : K) (n : Nat) (i : Fin N) :
    t.containsLoop key n i = (t.getLoop key n i).isSome := by
  induction n generalizing i with
  | zero => rfl
  | succ n ih =>
    rw [containsLoop, getLoop]
    cases t.state i with
    | neverUsed => rfl
    | live =>
      cases t.slots i with
      | none => exact ih _
      | some e =>
        obtain ⟨k, v⟩ := e
        dsimp only
        split_ifs
        · rfl
        · exact ih _
    | tombstone => exact ih _

theorem contains_eq (hash : K → Nat) (t : Table K V N) (key : K) :
    t.contains hash key = (t.get hash key).isSome := by
  rw [contains, get]
  cases probeStart hash key with
  | none => rfl
  | some s => exact t.containsLoop_eq key N s

/-! ## Runs -/

end Table

/-- What changes a table. -/
inductive TableOp (K V : Type) where
  | insert (key : K) (value : V)
  | remove (key : K)
  | compact

namespace Table

variable {K V : Type} {N : Nat} [DecidableEq K]

/-- The table after an operation. -/
def apply (hash : K → Nat) (t : Table K V N) : TableOp K V → Table K V N
  | .insert key value => (t.insert hash key value).2
  | .remove key => (t.remove hash key).2
  | .compact => t.compact hash

/-- A map of at most `N` keys after an operation. -/
def applyMap (N : Nat) (m : Assoc K V) : TableOp K V → Assoc K V
  | .insert key value => if key ∈ m ∨ m.entries.length < N then m.insert key value else m
  | .remove key => m.erase key
  | .compact => m

theorem Holds.apply {hash : K → Nat} {t : Table K V N} {m : Assoc K V} (h : Holds hash t m)
    (op : TableOp K V) : Holds hash (t.apply hash op) (applyMap N m op) := by
  cases op with
  | insert key value =>
    obtain ⟨htaken, hfull, -⟩ := h.insert_eq key value
    rw [Table.apply, applyMap]
    split_ifs with hroom
    · exact (htaken hroom).2
    · rw [hfull hroom]
      exact h
  | remove key => exact (h.remove_eq key).2
  | compact => exact h.compact_eq.1

theorem Holds.run {hash : K → Nat} {t : Table K V N} {m : Assoc K V} (h : Holds hash t m)
    (ops : List (TableOp K V)) :
    Holds hash (ops.foldl (Table.apply hash) t) (ops.foldl (applyMap N) m) := by
  induction ops generalizing t m with
  | nil => exact h
  | cons op ops ih => exact ih (h.apply op)

/-- **A table is a finite map of at most `N` keys**, after any operations and for any hash. -/
theorem refines_map (N : Nat) (hash : K → Nat) (ops : List (TableOp K V)) (t : Table K V N)
    (m : Assoc K V) (ht : t = ops.foldl (Table.apply hash) new) (hm : m = ops.foldl (applyMap N) ∅) :
    (∀ k, t.get hash k = m.lookup k) ∧
    (∀ k, t.contains hash k = true ↔ k ∈ m) ∧
    t.len = m.entries.length ∧
    t.forEach.Perm m.toList ∧
    (∀ k v, k ∉ m ∧ m.entries.length = N → t.insert hash k v = (.error .full, t)) ∧
    (∀ k v, ¬ (k ∉ m ∧ m.entries.length = N) → (t.insert hash k v).1 = .ok (m.lookup k)) ∧
    (∀ k, (t.remove hash k).1 = m.lookup k) ∧
    (∀ k, (t.compact hash).get hash k = m.lookup k) ∧
    ∀ i, (t.compact hash).state i ≠ .tombstone := by
  have h : Holds hash t m := by
    rw [ht, hm]
    exact (holds_new hash).run ops
  obtain ⟨hcompact, hclean⟩ := h.compact_eq
  refine ⟨h.get_eq, fun k => ?_, h.len_eq, h.forEach_perm, fun k v hfull => ?_, fun k v hroom => ?_,
    fun k => (h.remove_eq k).1, hcompact.get_eq, hcompact.not_tombstone hclean⟩
  · rw [contains_eq, h.get_eq, AList.lookup_isSome]
  · refine (h.insert_eq k v).2.1 ?_
    rintro (hmem | hlt)
    · exact hfull.1 hmem
    · omega
  · refine ((h.insert_eq k v).1 ?_).1
    have hle := h.size_le
    by_cases hmem : k ∈ m
    · exact .inl hmem
    · refine .inr (lt_of_le_of_ne hle fun heq => hroom ⟨hmem, heq⟩)

/-- Two keys that start at one slot of a table of two: the second is still found after the
first is removed, and a third takes its tombstone. -/
theorem refines_map_two :
    (([.insert 0 10, .insert 2 12, .remove 0, .insert 4 14] : List (TableOp Nat Nat)).foldl
      (apply id) (new : Table Nat Nat 2)).get id 2 = some 12 :=
  ((refines_map 2 id [.insert 0 10, .insert 2 12, .remove 0, .insert 4 14] _ _ rfl rfl).1 2).trans
    (by decide)

end Table

end Roots

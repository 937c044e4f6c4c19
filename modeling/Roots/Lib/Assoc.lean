import Mathlib.Data.List.AList

/-!
# Roots.Lib.Assoc

Finite maps as Mathlib's `AList`, with the operations of a hash map that `AList`
does not have: updating a value in place (`modify`), inserting a default (`orInsert`),
filtering (`retain`) and mapping all values. Each operation has **one lemma that says
what `lookup` gives afterwards**, and proofs about maps go through those.
-/

/-- A finite map. -/
abbrev Assoc (κ α : Type) := AList (fun _ : κ => α)

namespace Assoc

variable {κ α : Type} [DecidableEq κ]

/-- Apply `f` to the value at `k`, if there is one (`get_mut`). -/
def modify (m : Assoc κ α) (k : κ) (f : α → α) : Assoc κ α :=
  match m.lookup k with
  | some v => m.insert k (f v)
  | none => m

/-- Insert `v` at `k` unless there is a value (`entry(..).or_insert(..)`). -/
def orInsert (m : Assoc κ α) (k : κ) (v : α) : Assoc κ α :=
  if k ∈ m then m else m.insert k v

omit [DecidableEq κ] in
private theorem nodupKeys_filter {l : List (Sigma fun _ : κ => α)} (h : l.NodupKeys)
    (p : (Sigma fun _ : κ => α) → Bool) : (l.filter p).NodupKeys :=
  List.NodupKeys.sublist List.filter_sublist h

/-- Keep the entries `p` accepts. -/
def retain (m : Assoc κ α) (p : κ → α → Bool) : Assoc κ α :=
  ⟨m.entries.filter fun e => p e.1 e.2, nodupKeys_filter m.nodupKeys _⟩

omit [DecidableEq κ] in
private theorem nodupKeys_map {l : List (Sigma fun _ : κ => α)} (h : l.NodupKeys)
    (f : α → α) :
    (l.map fun e => (⟨e.1, f e.2⟩ : Sigma fun _ : κ => α)).NodupKeys := by
  rw [List.NodupKeys, List.keys, List.map_map]
  exact h

/-- Apply `f` to every value (`values_mut`). -/
def mapValues (m : Assoc κ α) (f : α → α) : Assoc κ α :=
  ⟨m.entries.map fun e => ⟨e.1, f e.2⟩, nodupKeys_map m.nodupKeys f⟩

/-- The entries as pairs. -/
def toList (m : Assoc κ α) : List (κ × α) := m.entries.map fun e => (e.1, e.2)

section Lookup

variable (m : Assoc κ α) (k k' : κ)

theorem lookup_insert_ite (v : α) :
    (m.insert k v).lookup k' = if k' = k then some v else m.lookup k' := by
  split
  · rename_i h
    rw [h, AList.lookup_insert]
  · exact AList.lookup_insert_ne ‹_›

theorem lookup_erase_ite : (m.erase k).lookup k' = if k' = k then none else m.lookup k' := by
  split
  · rename_i h
    rw [h, AList.lookup_erase]
  · exact AList.lookup_erase_ne ‹_›

theorem lookup_modify (f : α → α) :
    (m.modify k f).lookup k' = if k' = k then (m.lookup k').map f else m.lookup k' := by
  unfold modify
  split
  · rename_i v hv
    rw [lookup_insert_ite]
    split
    · rename_i h
      rw [h, hv]
      rfl
    · rfl
  · rename_i hv
    split
    · rename_i h
      rw [h, hv]
      rfl
    · rfl

theorem lookup_orInsert (v : α) :
    (m.orInsert k v).lookup k' = if k' = k then some ((m.lookup k').getD v) else m.lookup k' := by
  unfold orInsert
  split
  · rename_i hmem
    split
    · rename_i h
      subst h
      obtain ⟨u, hu⟩ := Option.isSome_iff_exists.mp (AList.lookup_isSome.mpr hmem)
      rw [hu]
      rfl
    · rfl
  · rename_i hmem
    rw [lookup_insert_ite]
    split
    · rename_i h
      subst h
      rw [AList.lookup_eq_none.mpr hmem]
      rfl
    · rfl

private theorem dlookup_filter {l : List (Sigma fun _ : κ => α)} (hl : l.NodupKeys)
    (p : κ → α → Bool) :
    (l.filter fun e => p e.1 e.2).dlookup k = (l.dlookup k).filter (p k) := by
  induction l with
  | nil => rfl
  | cons e l ih =>
    obtain ⟨k₀, v⟩ := e
    obtain ⟨hnot, hl'⟩ := List.nodupKeys_cons.mp hl
    by_cases hk : k = k₀
    · subst hk
      rw [List.dlookup_cons_eq]
      cases hp : p k v with
      | true => simp [hp, Option.filter]
      | false =>
        have hnone : l.dlookup k = none := List.dlookup_eq_none.mpr hnot
        simp [hp, ih hl', hnone, Option.filter]
    · rw [List.dlookup_cons_ne _ _ hk, ← ih hl', List.filter_cons]
      split
      · exact List.dlookup_cons_ne _ _ hk
      · rfl

theorem lookup_retain (p : κ → α → Bool) :
    (m.retain p).lookup k = (m.lookup k).filter (p k) :=
  dlookup_filter k m.nodupKeys p

omit [DecidableEq κ] in
theorem retain_congr {p q : κ → α → Bool} (h : ∀ k v, p k v = q k v) :
    m.retain p = m.retain q := by
  obtain rfl : p = q := funext fun k => funext (h k)
  rfl

omit [DecidableEq κ] in
theorem retain_true : m.retain (fun _ _ => true) = m :=
  AList.ext (List.filter_eq_self.mpr fun _ _ => rfl)

private theorem filter_kerase {l : List (Sigma fun _ : κ => α)} (hl : l.NodupKeys)
    (p : κ → α → Bool) :
    (l.kerase k).filter (fun e => p e.1 e.2) = l.filter fun e => e.1 ≠ k && p e.1 e.2 := by
  induction l with
  | nil => rfl
  | cons e l ih =>
    obtain ⟨k₀, v⟩ := e
    obtain ⟨hnot, hl'⟩ := List.nodupKeys_cons.mp hl
    by_cases hk : k = k₀
    · subst hk
      -- The erased key does not occur again.
      have hrest : ∀ e ∈ l, p e.1 e.2 = (decide (e.1 ≠ k) && p e.1 e.2) := by
        intro e he
        have hne : e.1 ≠ k := fun h => hnot (h ▸ List.mem_map.mpr ⟨e, he, rfl⟩)
        simp [hne]
      have hhead : List.kerase k ((⟨k, v⟩ : Sigma fun _ : κ => α) :: l) = l :=
        List.kerase_cons_eq rfl
      rw [hhead, List.filter_cons_of_neg (by simp)]
      exact List.filter_congr hrest
    · have hhead : List.kerase k ((⟨k₀, v⟩ : Sigma fun _ : κ => α) :: l) = ⟨k₀, v⟩ :: l.kerase k :=
        List.kerase_cons_ne hk
      rw [hhead, List.filter_cons, List.filter_cons, ih hl']
      simp [Ne.symm hk]

/-- Erasing a key before keeping some entries. -/
theorem retain_erase (p : κ → α → Bool) :
    retain (m.erase k) p = m.retain fun k' v => k' ≠ k && p k' v :=
  AList.ext (filter_kerase k m.nodupKeys p)

theorem lookup_mapValues (f : α → α) : (m.mapValues f).lookup k = (m.lookup k).map f := by
  unfold mapValues AList.lookup
  dsimp only
  induction m.entries with
  | nil => rfl
  | cons e l ih =>
    obtain ⟨k₀, v⟩ := e
    by_cases hk : k = k₀
    · subst hk
      simp
    · rw [List.map_cons, List.dlookup_cons_ne _ _ hk, List.dlookup_cons_ne _ _ hk, ih]

end Lookup

section Mem

variable {m : Assoc κ α} {k : κ}

theorem mem_iff_lookup : k ∈ m ↔ ∃ v, m.lookup k = some v := by
  rw [← AList.lookup_isSome, Option.isSome_iff_exists]

@[simp]
theorem mem_mapValues {f : α → α} : k ∈ m.mapValues f ↔ k ∈ m := by
  rw [mem_iff_lookup, mem_iff_lookup, lookup_mapValues]
  cases m.lookup k <;> simp

theorem mem_toList {v : α} : (k, v) ∈ m.toList ↔ m.lookup k = some v := by
  have hmem : m.lookup k = some v ↔ (⟨k, v⟩ : Sigma fun _ : κ => α) ∈ m.entries :=
    List.mem_dlookup_iff m.nodupKeys
  rw [hmem, toList, List.mem_map]
  constructor
  · rintro ⟨⟨k', v'⟩, h, heq⟩
    cases heq
    exact h
  · intro h
    exact ⟨⟨k, v⟩, h, rfl⟩

theorem mem_modify {f : α → α} {k' : κ} : k ∈ m.modify k' f ↔ k ∈ m := by
  rw [← AList.lookup_isSome, ← AList.lookup_isSome, lookup_modify]
  split <;> simp

theorem mem_orInsert_of_mem {v : α} {k' : κ} (h : k ∈ m) : k ∈ m.orInsert k' v := by
  obtain ⟨u, hu⟩ := mem_iff_lookup.mp h
  rw [mem_iff_lookup, lookup_orInsert, hu]
  split <;> exact ⟨_, rfl⟩

/-- How often something occurs that each entry makes of its own key only. -/
theorem count_flatMap_toList {β : Type} [BEq β] [LawfulBEq β] (key : β → κ) {f : κ × α → List β}
    (hf : ∀ e, ∀ y ∈ f e, key y = e.1) (m : Assoc κ α) (x : β) :
    (m.toList.flatMap f).count x =
      ((m.lookup (key x)).map fun v => (f (key x, v)).count x).getD 0 := by
  obtain ⟨entries, hnodup⟩ := m
  show ((entries.map fun e => (e.1, e.2)).flatMap f).count x =
    ((entries.dlookup (key x)).map fun v => (f (key x, v)).count x).getD 0
  induction entries with
  | nil => rfl
  | cons e entries ih =>
    obtain ⟨k, v⟩ := e
    obtain ⟨hnot, hrest⟩ := List.nodupKeys_cons.mp hnodup
    rw [List.map_cons, List.flatMap_cons, List.count_append, ih hrest]
    by_cases hk : key x = k
    · subst hk
      rw [List.dlookup_cons_eq, List.dlookup_eq_none.mpr hnot]
      rfl
    · have hother : (f (k, v)).count x = 0 :=
        List.count_eq_zero.mpr fun hx => hk (hf (k, v) x hx)
      rw [List.dlookup_cons_ne _ _ hk, hother, Nat.zero_add]

/-- What a function keeps of the values is the same after it was applied at a key. -/
theorem map_lookup_modify {β : Type*} {f : α → α} {g : α → β} (h : ∀ a, g (f a) = g a) {k' : κ} :
    ((m.modify k' f).lookup k).map g = (m.lookup k).map g := by
  rw [lookup_modify]
  split
  · rw [Option.map_map, Function.comp_def]
    simp only [h]
  · rfl

/-- And at some keys. -/
theorem map_lookup_foldl_modify {β : Type*} {f : α → α} {g : α → β} (h : ∀ a, g (f a) = g a)
    {keys : List κ} :
    ((keys.foldl (fun m k' => m.modify k' f) m).lookup k).map g = (m.lookup k).map g := by
  induction keys generalizing m with
  | nil => rfl
  | cons k' keys ih => rw [List.foldl_cons, ih, map_lookup_modify h]

theorem lookup_foldl_modify_of_notMem {f : α → α} {keys : List κ} (h : k ∉ keys) :
    (keys.foldl (fun m k' => m.modify k' f) m).lookup k = m.lookup k := by
  induction keys generalizing m with
  | nil => rfl
  | cons k' keys ih =>
    have hne : k ≠ k' := fun heq => h (heq ▸ List.mem_cons_self ..)
    rw [List.foldl_cons, ih fun hk => h (List.mem_cons_of_mem _ hk), lookup_modify, if_neg hne]

/-- What a function gives all values is what the values at the keys have. -/
theorem map_lookup_foldl_modify_of_mem {β : Type*} {f : α → α} {g : α → β} {b : β}
    (hg : ∀ a, g (f a) = b) {keys : List κ} (h : k ∈ keys) :
    ((keys.foldl (fun m k' => m.modify k' f) m).lookup k).map g = (m.lookup k).map fun _ => b := by
  induction keys generalizing m with
  | nil => cases h
  | cons k' keys ih =>
    rw [List.foldl_cons]
    by_cases hk : k ∈ keys
    · have hsame : ∀ a, (fun _ : α => b) (f a) = b := fun _ => rfl
      rw [ih hk, map_lookup_modify hsame]
    · have heq : k = k' := (List.mem_cons.mp h).resolve_right hk
      rw [lookup_foldl_modify_of_notMem hk, lookup_modify, if_pos heq, Option.map_map]
      simp only [Function.comp_def, hg]

end Mem

end Assoc

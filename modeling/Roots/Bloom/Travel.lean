import Roots.Bloom
import Roots.Rendezvous
import Roots.Wire.RoundTrip

/-!
# Roots.Bloom.Travel

Bloom filters on the wire. A word is flagged or spelled out, and the flags are bits in the order
of the words, so the reader finds for each word what the writer did with it
(`decodeWords_bytes`), and **a filter is read back exactly**. With the facts about `add` and
`merge` this gives what filters are for: however one was put together and sent around, it knows
all of its members (`Built`).
-/

namespace Roots.BloomFilter

open Wire

/-! ## Flags -/

/-- A flag is the bit of its word. -/
theorem flagged_packBits (bits : List Bool) {idx : Nat} (h : idx < 128) :
    flagged (packBits 16 bits).toList idx = bits.getD idx false := by
  have hsplit : 8 * (idx / 8) + idx % 8 = idx := by omega
  have hbit : flagged (packBits 16 bits).toList idx =
      bitAt ((packBits 16 bits).toList.getD (idx / 8) 0) (idx % 8) := rfl
  rw [hbit, ← getD_bitsOf _ _ _ (Nat.mod_lt _ (by decide)), hsplit, bitsOf_packBits,
    List.getD_eq_getElem?_getD, List.getElem?_map, List.getElem?_range (by omega)]
  rfl

/-- What the writer does with a word, the reader undoes. -/
theorem decodeWord_bytes {flags0 flags1 : Bytes} {idx : Nat} {w : UInt64}
    (h0 : flagged flags0 idx = (w == 0)) (h1 : flagged flags1 idx = (w == 0xffffffffffffffff))
    (rest : Bytes) :
    decodeWord flags0 flags1 idx (([w].filter isData).flatMap toBeBytes ++ rest) =
      .ok (w, rest) := by
  unfold decodeWord
  rw [h0, h1]
  by_cases hzero : w = 0
  · subst hzero
    rfl
  by_cases hones : w = 0xffffffffffffffff
  · subst hones
    rfl
  have hdata : isData w = true := by simp [isData, hzero, hones]
  have hword : ([w].filter isData).flatMap toBeBytes = toBeBytes w := by
    rw [List.filter_cons_of_pos hdata, List.filter_nil, List.flatMap_singleton]
  rw [beq_false_of_ne hzero, beq_false_of_ne hones, hword]
  dsimp only
  have htake : takeArray 8 (toBeBytes w ++ rest) = .ok (⟨toBeBytes w, rfl⟩, rest) :=
    takeArray_append ⟨toBeBytes w, rfl⟩ rest
  rw [htake, ok_bind]
  exact congrArg (fun v => Except.ok (v, rest)) (fromBeBytes_toBeBytes w)

/-- The loop over the words from `idx` on. -/
theorem decodeWords_bytes {flags0 flags1 : Bytes} {n : Nat} (ws : List.Vector UInt64 n) (idx : Nat)
    (h0 : ∀ i < n, flagged flags0 (idx + i) = (ws.toList.getD i 0 == 0))
    (h1 : ∀ i < n, flagged flags1 (idx + i) = (ws.toList.getD i 0 == 0xffffffffffffffff))
    (rest : Bytes) :
    decodeWords flags0 flags1 n idx ((ws.toList.filter isData).flatMap toBeBytes ++ rest) =
      .ok (ws, rest) := by
  induction n generalizing idx with
  | zero =>
    rw [List.Vector.eq_nil ws]
    rfl
  | succ n ih =>
    obtain ⟨w, ws, rfl⟩ := ws.exists_eq_cons
    have hsplit : ((w ::ᵥ ws).toList.filter isData).flatMap toBeBytes ++ rest =
        ([w].filter isData).flatMap toBeBytes ++
          ((ws.toList.filter isData).flatMap toBeBytes ++ rest) := by
      rw [List.Vector.toList_cons, ← List.singleton_append, List.filter_append,
        List.flatMap_append, List.append_assoc]
    have hshift : ∀ i, idx + 1 + i = idx + (i + 1) := fun i => by omega
    have htail := ih ws (idx + 1)
      (fun i hi => by rw [hshift, h0 (i + 1) (by omega)]; rfl)
      (fun i hi => by rw [hshift, h1 (i + 1) (by omega)]; rfl)
    have hzero : flagged flags0 idx = (w == 0) := h0 0 (Nat.succ_pos n)
    have hones : flagged flags1 idx = (w == 0xffffffffffffffff) := h1 0 (Nat.succ_pos n)
    rw [hsplit, decodeWords, decodeWord_bytes hzero hones, ok_bind]
    dsimp only
    rw [htail, ok_bind]
    rfl

/-- **A filter is read back exactly.** -/
theorem decodeExact_bytes (b : BloomFilter) : decodeExact b.bytes = .ok b := by
  have hflags : ∀ (p : UInt64 → Bool) (i : Nat), i < 128 →
      flagged (packBits 16 (b.words.toList.map p)).toList (0 + i) = p (b.words.toList.getD i 0) := by
    intro p i hi
    have hlt : i < b.words.toList.length := by rwa [List.Vector.toList_length]
    rw [Nat.zero_add, flagged_packBits _ hi, List.getD_eq_getElem?_getD, List.getElem?_map,
      List.getD_eq_getElem?_getD, List.getElem?_eq_getElem hlt]
    rfl
  have hwords := decodeWords_bytes b.words 0 (hflags (· == 0)) (hflags (· == 0xffffffffffffffff)) []
  rw [List.append_nil] at hwords
  rw [decodeExact, bytes, List.append_assoc, takeArray_append, ok_bind]
  dsimp only
  rw [takeArray_append, ok_bind]
  dsimp only
  rw [hwords, ok_bind]
  rfl

/-! ## Filters put together -/

/-- A filter that was put together from the empty one, with what was added to it and to the
filters that went into it. -/
inductive Built : BloomFilter → List Bytes → Prop
  | empty : Built .empty []
  | add {b : BloomFilter} {members : List Bytes} (data : Bytes) :
      Built b members → Built (b.add data) (data :: members)
  | merge {b other : BloomFilter} {members members' : List Bytes} :
      Built b members → Built other members' → Built (b.merge other) (members ++ members')
  /-- The filter is encoded, and what was encoded is decoded. -/
  | travel {b b' : BloomFilter} {members : List Bytes} {e : Bytes} :
      Built b members → b.encode = .ok e → decodeExact e = .ok b' → Built b' members

theorem test_add_of_test {b : BloomFilter} {data : Bytes} (h : b.test data = true)
    (other : Bytes) : (b.add other).test data = true :=
  test_eq_true.mpr fun l hl => (test_eq_true.mp h l hl).foldl_setBit _

/-- A filter knows its members, by induction on how it was put together. -/
theorem Built.test {b : BloomFilter} {members : List Bytes} (h : Built b members) :
    ∀ data ∈ members, b.test data = true := by
  induction h with
  | empty => simp
  | add data _ ih =>
    refine List.forall_mem_cons.mpr ⟨test_add _ data, fun other hother => ?_⟩
    exact test_add_of_test (ih other hother) data
  | merge _ _ ih ih' =>
    refine List.forall_mem_append.mpr ⟨fun data hdata => ?_, fun data hdata => ?_⟩
    · exact test_merge_left (ih data hdata) _
    · exact test_merge_right _ (ih' data hdata)
  | travel _ hencode hdecode ih =>
    rw [encode_eq] at hencode
    cases hencode
    rw [decodeExact_bytes] at hdecode
    cases hdecode
    exact ih

/-- `encode_to` succeeds if and only if there is room for the flags and for the words that are
spelled out. -/
theorem encodeTo_ok_iff (b : BloomFilter) (room : Nat) (e : Bytes) :
    b.encodeTo room = .ok e ↔
      2 * 16 + 8 * b.words.toList.countP isData ≤ room ∧ e = b.bytes := by
  unfold encodeTo
  rw [bytes_length]
  split_ifs with h
  · exact iff_of_false (by simp) fun hroom => absurd hroom.1 (Nat.not_le.mpr h)
  · constructor
    · intro he
      exact ⟨Nat.not_lt.mp h, (Except.ok.inj he).symm⟩
    · intro he
      rw [he.2]

/-- **Bloom filters never forget and travel exactly.** A filter knows everything that was added
to it or to a filter that was merged into it, also after any number of round trips; every filter
is read back as it was; and encoding into a buffer needs 32 bytes and 8 for each word that is
neither all zeros nor all ones, and writes exactly those. -/
theorem built_filters_remember :
    (∀ b members, Built b members → ∀ data ∈ members, b.test data = true) ∧
      (∀ b : BloomFilter, ∃ e, b.encode = .ok e ∧ decodeExact e = .ok b) ∧
      ∀ (b : BloomFilter) (room : Nat),
        ((∃ e, b.encodeTo room = .ok e) ↔ 32 + 8 * b.words.toList.countP isData ≤ room) ∧
          ∀ e, b.encodeTo room = .ok e → e.length = 32 + 8 * b.words.toList.countP isData := by
  refine ⟨fun b members h => h.test, fun b => ⟨b.bytes, encode_eq b, decodeExact_bytes b⟩, ?_⟩
  intro b room
  constructor
  · constructor
    · intro ⟨e, he⟩
      exact ((encodeTo_ok_iff b room e).mp he).1
    · intro hroom
      exact ⟨b.bytes, (encodeTo_ok_iff b room _).mpr ⟨hroom, rfl⟩⟩
  · intro e he
    rw [((encodeTo_ok_iff b room e).mp he).2, bytes_length]

end Roots.BloomFilter

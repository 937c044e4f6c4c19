import Mathlib.Data.List.Induction
import Roots.Bloom

/-!
# Roots.Bloom.Murmur

What the base hashes of `src/bloom.rs` are. `base_hashes` goes over the full blocks once and then
finishes twice, the second time as if a byte `0x01` followed the data: as a pad in the tail, or in
a block of its own when the tail has no room for it.

**They are the Murmur3 hash of the data and that of the data with the byte appended**
(`baseHashes_eq`).
-/

namespace Roots.Murmur

/-- The 128-bit hash of some bytes: their full blocks, and the rest with their length. -/
def hash (x : Bytes) : UInt64 × UInt64 :=
  sum128 (blocks (x.length / 16) x (0, 0)) false x.length (x.drop (x.length / 16 * 16))

/-! ## Words -/

theorem xorBytes_append_singleton (k : UInt64) (b : Bytes) (x : UInt8) :
    xorBytes k (b ++ [x]) = xorBytes k b ^^^ (x.toUInt64 <<< UInt64.ofNat (8 * b.length)) := by
  simp [xorBytes, List.zipIdx_append]

/-- What is on top of the bytes may as well come first. -/
theorem xorBytes_xor (k c : UInt64) (b : Bytes) : xorBytes (k ^^^ c) b = xorBytes k b ^^^ c := by
  induction b using List.reverseRecOn with
  | nil => rfl
  | append_singleton b x ih =>
    rw [xorBytes_append_singleton, xorBytes_append_singleton, ih, UInt64.xor_assoc, UInt64.xor_assoc,
      UInt64.xor_comm c]

/-- The pad is the byte `0x01` after the others. -/
theorem xorBytes_pad (b : Bytes) :
    xorBytes (1 <<< UInt64.ofNat (8 * b.length)) b = xorBytes 0 (b ++ [1]) := by
  rw [xorBytes_append_singleton, ← xorBytes_xor, UInt64.zero_xor]
  rfl

/-! ## Blocks -/

theorem blocks_zero (data : Bytes) (h : UInt64 × UInt64) : blocks 0 data h = h := rfl

theorem blocks_cons (n : Nat) (data : Bytes) (h : UInt64 × UInt64) :
    blocks (n + 1) data h =
      blocks n (data.drop 16)
        (bmixWords h (leU64 (data.take 8)) (leU64 ((data.drop 8).take 8))) := by
  -- The kernel must not run the arithmetic of `bmixWords` to see that both sides are the same.
  delta blocks blocks._f
  generalize bmixWords = mix
  rfl

/-- The full blocks do not depend on what comes behind them. -/
theorem blocks_append (n : Nat) (data s : Bytes) (h : UInt64 × UInt64)
    (hlen : n * 16 ≤ data.length) : blocks n (data ++ s) h = blocks n data h := by
  induction n generalizing data h with
  | zero => rfl
  | succ n ih =>
    have h16 : 16 ≤ data.length := by omega
    rw [blocks_cons, blocks_cons, List.drop_append_of_le_length h16,
      List.take_append_of_le_length (by omega),
      List.drop_append_of_le_length (by omega),
      List.take_append_of_le_length (by rw [List.length_drop]; omega),
      ih _ _ (by rw [List.length_drop]; omega)]

/-- One more block after the others. -/
theorem blocks_succ (n : Nat) (data : Bytes) (h : UInt64 × UInt64) :
    blocks (n + 1) data h =
      bmixWords (blocks n data h) (leU64 ((data.drop (n * 16)).take 8))
        (leU64 (((data.drop (n * 16)).drop 8).take 8)) := by
  induction n generalizing data h with
  | zero => rw [blocks_cons, Nat.zero_mul, List.drop_zero, blocks_zero, blocks_zero]
  | succ n ih =>
    rw [blocks_cons, ih, ← blocks_cons, List.drop_drop, Nat.succ_mul, Nat.add_comm 16]

/-! ## The second pass -/

/-- The pad in the first word of the tail. -/
theorem padTail_first (h : UInt64 × UInt64) {n : Nat} (h0 : 0 < n) (h8 : n < 8) :
    padTail h n = ⟨h.1, h.2, 1 <<< UInt64.ofNat (8 * n), 0⟩ := by
  have hmod : (n + 1) % 16 = n + 1 := Nat.mod_eq_of_lt (by omega)
  simp only [padTail, hmod]
  rw [if_neg (by omega), if_neg (by omega), if_neg (by omega), if_pos (by omega),
    Nat.add_sub_cancel]

/-- The pad in the second. -/
theorem padTail_second (h : UInt64 × UInt64) {n : Nat} (h8 : 8 < n) (h15 : n < 15) :
    padTail h n = ⟨h.1, h.2, 0, 1 <<< UInt64.ofNat (8 * (n - 8))⟩ := by
  have hmod : (n + 1) % 16 = n + 1 := Nat.mod_eq_of_lt (by omega)
  simp only [padTail, hmod]
  rw [if_neg (by omega), if_pos (by omega), show n + 1 - 9 = n - 8 by omega]

theorem xorBytes_one : xorBytes 0 [1] = 1 := by decide

/-- A pad in the tail is a byte that follows it. -/
theorem sum128_pad (h : UInt64 × UInt64) (length : Nat) (tail : Bytes) (hlen : tail.length < 15) :
    sum128 h true length tail = sum128 h false length (tail ++ [1]) := by
  have hlen' : (tail ++ [1]).length = tail.length + 1 := List.length_append
  have hmod : tail.length % 16 = tail.length := Nat.mod_eq_of_lt (by omega)
  have hmod' : (tail.length + 1) % 16 = tail.length + 1 := Nat.mod_eq_of_lt (by omega)
  -- The second word is in the tail, is the pad alone or is not there at all.
  have h2 : (if 9 ≤ tail.length % 16 then
        (padTail h tail.length).h2 ^^^ mixK2 (xorBytes (padTail h tail.length).k2 (tail.drop 8))
      else (padTail h tail.length).h2) =
      if 9 ≤ (tail ++ [1]).length % 16 then h.2 ^^^ mixK2 (xorBytes 0 ((tail ++ [1]).drop 8))
      else h.2 := by
    rw [hlen', hmod, hmod']
    rcases lt_trichotomy tail.length 8 with hlt | heq | hgt
    · rw [if_neg (by omega), if_neg (by omega)]
      rcases Nat.eq_zero_or_pos tail.length with hzero | hpos
      · rw [hzero]
        rfl
      · rw [padTail_first h hpos hlt]
    · have hdrop : (tail ++ [1]).drop 8 = [1] := by rw [← heq, List.drop_left]
      rw [if_neg (by omega), if_pos (by omega), hdrop, xorBytes_one, heq]
      rfl
    · have hdrop : (tail ++ [1]).drop 8 = tail.drop 8 ++ [1] :=
        List.drop_append_of_le_length (by omega)
      rw [if_pos (by omega), if_pos (by omega), padTail_second h hgt hlen, hdrop, ← xorBytes_pad,
        List.length_drop]
  -- The first word, too.
  have h1 : (if 0 < tail.length then
        (padTail h tail.length).h1 ^^^ mixK1 (xorBytes (padTail h tail.length).k1 (tail.take 8))
      else (padTail h tail.length).h1) =
      if 0 < (tail ++ [1]).length then h.1 ^^^ mixK1 (xorBytes 0 ((tail ++ [1]).take 8))
      else h.1 := by
    rw [hlen', if_pos (Nat.succ_pos tail.length)]
    rcases Nat.eq_zero_or_pos tail.length with hzero | hpos
    · rw [List.length_eq_zero_iff.mp hzero]
      rw [if_neg (by decide), List.nil_append, List.take_of_length_le (by decide), xorBytes_one]
      rfl
    · rw [if_pos hpos]
      rcases Nat.lt_or_ge tail.length 8 with hlt | hge
      · rw [padTail_first h hpos hlt, List.take_of_length_le (by omega),
          List.take_of_length_le (by omega), ← xorBytes_pad]
      · have htake : (tail ++ [1]).take 8 = tail.take 8 := List.take_append_of_le_length hge
        rw [htake]
        rcases Nat.eq_or_lt_of_le hge with heq | hgt
        · rw [← heq]
          rfl
        · rw [padTail_second h hgt hlen]
  simp only [sum128, if_true, Bool.false_eq_true, if_false, h1, h2]

/-- **The base hashes are the hash of the data and of the data followed by `0x01`.** -/
theorem baseHashes_eq (data : Bytes) :
    (baseHashes data).toList =
      [(hash data).1, (hash data).2, (hash (data ++ [1])).1, (hash (data ++ [1])).2] := by
  obtain ⟨n, hn⟩ : ∃ n, n = data.length / 16 := ⟨_, rfl⟩
  obtain ⟨tail, htail⟩ : ∃ tail, tail = data.drop (n * 16) := ⟨_, rfl⟩
  have hlen : tail.length = data.length % 16 := by
    rw [htail, List.length_drop, hn]
    omega
  have hlen' : (data ++ [1]).length = data.length + 1 := List.length_append
  have hdrop : (data ++ [1]).drop (n * 16) = tail ++ [1] := by
    rw [htail, List.drop_append_of_le_length (by omega)]
  have hblocks : blocks n (data ++ [1]) (0, 0) = blocks n data (0, 0) :=
    blocks_append n data [1] (0, 0) (by omega)
  have hsecond : hash (data ++ [1]) =
      if tail.length + 1 = 16 then
        sum128 (bmixWords (blocks n data (0, 0)) (leU64 (tail.take 8)) (leU64 (tail.drop 8 ++ [1])))
          false (data.length + 1) []
      else sum128 (blocks n data (0, 0)) true (data.length + 1) tail := by
    rw [hash, hlen']
    by_cases hfull : tail.length + 1 = 16
    · -- The byte completes a block.
      have hdiv : (data.length + 1) / 16 = n + 1 := by omega
      have hnil : (data ++ [1]).drop ((n + 1) * 16) = [] :=
        List.drop_eq_nil_of_le (by rw [hlen']; omega)
      have hword : ((tail ++ [1]).drop 8).take 8 = tail.drop 8 ++ [1] := by
        rw [List.drop_append_of_le_length (by omega)]
        exact List.take_of_length_le (by rw [List.length_append, List.length_drop]; simp; omega)
      rw [if_pos hfull, hdiv, hnil, blocks_succ, hblocks, hdrop, hword,
        List.take_append_of_le_length (by omega)]
    · have hdiv : (data.length + 1) / 16 = n := by omega
      rw [if_neg hfull, hdiv, hblocks, hdrop, sum128_pad _ _ _ (by omega)]
  have hfirst : hash data = sum128 (blocks n data (0, 0)) false data.length tail := by
    rw [hash, ← hn, ← htail]
  simp only [baseHashes, ← hn, ← htail, List.Vector.toList_mk]
  rw [hfirst, hsecond]

end Roots.Murmur

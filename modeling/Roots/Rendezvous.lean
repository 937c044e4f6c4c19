import Mathlib.Data.List.GetD
import Mathlib.Data.List.FinRange
import Roots.Address

/-!
# Roots.Rendezvous

Why a lookup and its target meet. A node is found by the transform `xkey` of its key, and
a sender that only has an address looks up the transform of the partial key the address
spells. The two are the same for every key (`xkey_lookupKeyForAddr`): an address never
holds a bit that the key it spells has no room for (`Whole`), so **reading it back as a key
and taking the address again gives the same address** (`addrForKey_keyForAddr`).
-/

namespace Roots

/-! ## Bytes and their bits -/

/-- Bit `j` of a byte, most significant first. -/
def bitAt (x : UInt8) (j : Nat) : Bool := x &&& (0x80 >>> UInt8.ofNat j) ≠ 0

/-- The byte in which only bit `j` is set. -/
def bitMask (j : Nat) : UInt8 := 0x80 >>> UInt8.ofNat j

theorem toBitVec_bitMask : ∀ j < 8, (bitMask j).toBitVec = BitVec.twoPow 8 (7 - j) := by decide

theorem toBitVec_bitMask_ne_zero : ∀ j < 8, (bitMask j).toBitVec ≠ 0#8 := by decide

theorem bitAt_eq_getLsbD (x : UInt8) {j : Nat} (hj : j < 8) :
    bitAt x j = x.toBitVec.getLsbD (7 - j) := by
  have hand : (x &&& bitMask j).toBitVec =
      if x.toBitVec.getLsbD (7 - j) then (bitMask j).toBitVec else 0#8 := by
    rw [UInt8.toBitVec_and, toBitVec_bitMask j hj, BitVec.and_twoPow]
  have hbit : bitAt x j = decide ((x &&& bitMask j).toBitVec ≠ 0#8) := by
    rw [bitAt, decide_eq_decide, ne_eq, ne_eq, ← UInt8.toBitVec_inj]
    rfl
  rw [hbit, hand]
  cases x.toBitVec.getLsbD (7 - j) with
  | true => exact decide_eq_true (toBitVec_bitMask_ne_zero j hj)
  | false => rfl

/-- Bytes with the same bits are one. -/
theorem eq_of_bitAt_eq {x y : UInt8} (h : ∀ j < 8, bitAt x j = bitAt y j) : x = y := by
  refine UInt8.toBitVec_inj.mp (BitVec.eq_of_getLsbD_eq fun i hi => ?_)
  have hj := h (7 - i) (by omega)
  rwa [bitAt_eq_getLsbD x (by omega), bitAt_eq_getLsbD y (by omega),
    show 7 - (7 - i) = i by omega] at hj

theorem bitAt_not (x : UInt8) : ∀ j < 8, bitAt (~~~ x) j = !bitAt x j := by
  intro j hj
  rw [bitAt_eq_getLsbD _ hj, bitAt_eq_getLsbD _ hj, UInt8.toBitVec_not, BitVec.getLsbD_not,
    decide_eq_true (by omega), Bool.true_and]

theorem bitAt_or_bitMask (x : UInt8) {i j : Nat} (hi : i < 8) (hj : j < 8) :
    bitAt (x ||| bitMask i) j = (bitAt x j || decide (i = j)) := by
  rw [bitAt_eq_getLsbD _ hj, bitAt_eq_getLsbD _ hj, UInt8.toBitVec_or, BitVec.getLsbD_or,
    toBitVec_bitMask i hi, BitVec.getLsbD_twoPow, decide_eq_true (by omega), Bool.true_and]
  congr 1
  exact decide_eq_decide.mpr (by omega)

theorem bitsOf_cons (x : UInt8) (b : Bytes) :
    bitsOf (x :: b) = (List.range 8).map (bitAt x) ++ bitsOf b := rfl

@[simp]
theorem length_bitsOf (b : Bytes) : (bitsOf b).length = 8 * b.length := by
  induction b with
  | nil => rfl
  | cons x b ih =>
    rw [bitsOf_cons, List.length_append, ih, List.length_map, List.length_range, List.length_cons]
    omega

theorem bitsOf_map_not (b : Bytes) : bitsOf (b.map (~~~ ·)) = (bitsOf b).map not := by
  induction b with
  | nil => rfl
  | cons x b ih =>
    rw [List.map_cons, bitsOf_cons, bitsOf_cons, ih, List.map_append, List.map_map]
    congr 1
    exact List.map_congr_left fun j hj => bitAt_not x j (List.mem_range.mp hj)

/-- The byte with the given bits. -/
def byteOf (f : Nat → Bool) : UInt8 :=
  (List.range 8).foldl (fun b j => if f j then b ||| (0x80 >>> UInt8.ofNat j) else b) 0

theorem byteOf_congr {f g : Nat → Bool} (h : ∀ j < 8, f j = g j) : byteOf f = byteOf g :=
  List.foldl_ext _ _ _ fun b j hj => by rw [h j (List.mem_range.mp hj)]

theorem bitAt_foldl (f : Nat → Bool) {l : List Nat} (hl : ∀ i ∈ l, i < 8) (x : UInt8) {j : Nat}
    (hj : j < 8) : bitAt (l.foldl (fun b i => if f i then b ||| bitMask i else b) x) j =
      (bitAt x j || (decide (j ∈ l) && f j)) := by
  induction l generalizing x with
  | nil => simp
  | cons i l ih =>
    rw [List.foldl_cons, ih fun k hk => hl k (List.mem_cons_of_mem i hk)]
    by_cases hf : f i
    · rw [if_pos hf, bitAt_or_bitMask x (hl i List.mem_cons_self) hj]
      by_cases hij : i = j
      · simp [← hij, hf]
      · simp [hij, Ne.symm hij]
    · rw [if_neg hf]
      by_cases hij : i = j
      · simp [← hij, hf]
      · simp [Ne.symm hij]

theorem bitAt_byteOf (f : Nat → Bool) : ∀ j < 8, bitAt (byteOf f) j = f j := by
  intro j hj
  have hzero : bitAt 0 j = false := by
    revert j
    decide
  have hfold := bitAt_foldl f (fun _ => List.mem_range.mp) 0 hj
  rw [hzero, Bool.false_or, decide_eq_true (List.mem_range.mpr hj), Bool.true_and] at hfold
  exact hfold

theorem byteOf_bitAt (x : UInt8) : byteOf (bitAt x) = x := eq_of_bitAt_eq (bitAt_byteOf (bitAt x))

theorem byteAt_eq (bits : List Bool) (i : Nat) :
    byteAt bits i = byteOf fun j => bits.getD (8 * i + j) false := rfl

/-! ## Packing -/

theorem packBits_toList (n : Nat) (bits : List Bool) :
    (packBits n bits).toList = (List.range n).map (byteAt bits) := by
  refine List.ext_getElem (by simp [packBits]) fun i hi hi' => ?_
  simp [packBits, List.Vector.toList_ofFn]

/-- What was packed reads back, cut off or filled up with zeros. -/
theorem bitsOf_packBits (n : Nat) (bits : List Bool) :
    bitsOf (packBits n bits).toList = (List.range (8 * n)).map fun i => bits.getD i false := by
  rw [packBits_toList]
  induction n with
  | zero => rfl
  | succ n ih =>
    have hbyte : (List.range 8).map (bitAt (byteAt bits n)) =
        (List.range 8).map fun j => bits.getD (8 * n + j) false := by
      refine List.map_congr_left fun j hj => ?_
      rw [byteAt_eq, bitAt_byteOf _ j (List.mem_range.mp hj)]
    have happend : ∀ b b' : Bytes, bitsOf (b ++ b') = bitsOf b ++ bitsOf b' :=
      fun _ _ => List.flatMap_append
    rw [List.range_succ, List.map_append, happend, ih, Nat.mul_succ, List.range_add,
      List.map_append, List.map_map]
    exact congrArg (_ ++ ·) hbyte

theorem getD_bitsOf (b : Bytes) (i : Nat) : ∀ j < 8,
    (bitsOf b).getD (8 * i + j) false = bitAt (b.getD i 0) j := by
  induction b generalizing i with
  | nil =>
    intro j hj
    have hzero : ∀ j < 8, bitAt 0 j = false := by decide
    simp [bitsOf, hzero j hj]
  | cons x b ih =>
    intro j hj
    rw [bitsOf_cons]
    cases i with
    | zero =>
      rw [List.getD_append _ _ _ _ (by simpa using hj)]
      simp [hj]
    | succ i =>
      rw [List.getD_append_right _ _ _ _ (by simp; omega)]
      simp only [List.length_map, List.length_range, List.getD_cons_succ]
      rw [show 8 * (i + 1) + j - 8 = 8 * i + j by omega]
      exact ih i j hj

/-- Packing only looks at the bits it has room for. -/
theorem packBits_congr {n : Nat} {bits bits' : List Bool}
    (h : ∀ i < 8 * n, bits.getD i false = bits'.getD i false) : packBits n bits = packBits n bits' := by
  refine List.Vector.toList_injective ?_
  rw [packBits_toList, packBits_toList]
  refine List.map_congr_left fun i hi => ?_
  rw [List.mem_range] at hi
  rw [byteAt_eq, byteAt_eq]
  exact byteOf_congr fun j hj => h _ (by omega)

/-- A string of bytes is what its bits pack to. -/
theorem packBits_bitsOf {n : Nat} (v : List.Vector UInt8 n) : packBits n (bitsOf v.toList) = v := by
  refine List.Vector.toList_injective ?_
  rw [packBits_toList]
  refine List.ext_getElem (by simp) fun i hi hi' => ?_
  rw [List.getElem_map, List.getElem_range, byteAt_eq]
  calc byteOf (fun j => (bitsOf v.toList).getD (8 * i + j) false)
      = byteOf (bitAt (v.toList.getD i 0)) := byteOf_congr (getD_bitsOf v.toList i)
    _ = v.toList.getD i 0 := byteOf_bitAt _
    _ = v.toList[i] := by rw [List.getD_eq_getElem _ _ hi']

/-! ## The key an address spells -/

section

variable (addr : Address)

/-- The bits of an address after its count. -/
def Address.payload : List Bool := bitsOf (addr.toList.drop 2)

/-- An address whose payload ends with the last whole byte a key has room for. -/
def Whole : Prop :=
  ∀ i, 8 * ((255 - Address.ones addr) / 8) ≤ i → (Address.payload addr).getD i false = false

theorem Address.ones_le : Address.ones addr ≤ 255 := by
  have := (addr.get 1).toNat_lt
  unfold Address.ones
  omega

/-- The inverted bits of the key: the ones, a zero, and the payload as far as it goes. -/
theorem inv_keyForAddr :
    (bitsOf (keyForAddr addr).toList).map not =
      List.replicate (Address.ones addr) true ++ false ::
        (List.range (255 - Address.ones addr)).map fun i => (Address.payload addr).getD i false := by
  have hones := Address.ones_le addr
  obtain ⟨bits, hbits⟩ : ∃ bits, bits =
    List.replicate (Address.ones addr) true ++ false :: Address.payload addr := ⟨_, rfl⟩
  have hkey : keyForAddr addr = (packBits keyLen bits).map (~~~ ·) := hbits ▸ rfl
  have hsplit : 8 * keyLen = Address.ones addr + (1 + (255 - Address.ones addr)) := by
    show 256 = _
    omega
  have hnot : not ∘ not = id := funext Bool.not_not
  rw [hkey, List.Vector.toList_map, bitsOf_map_not, List.map_map, hnot, List.map_id,
    bitsOf_packBits, hsplit, List.range_add, List.range_add, List.map_append, List.map_append,
    List.map_append, List.map_map, List.map_map, List.map_map]
  congr 1
  · refine List.eq_replicate_iff.mpr ⟨by simp, fun b hb => ?_⟩
    obtain ⟨i, hi, rfl⟩ := List.mem_map.mp hb
    rw [List.mem_range] at hi
    rw [hbits, List.getD_append _ _ _ _ (by simpa using hi), List.getD_replicate _ hi]
  · have hafter : ∀ i, bits.getD (Address.ones addr + i) false =
        (false :: Address.payload addr).getD i false := by
      intro i
      rw [hbits, List.getD_append_right _ _ _ _ (by simp), List.length_replicate,
        Nat.add_sub_cancel_left]
    rw [List.range_one, List.map_singleton, List.singleton_append]
    refine congrArg₂ List.cons (hafter 0) (List.map_congr_left fun i _ => ?_)
    show bits.getD (Address.ones addr + (1 + i)) false = _
    rw [hafter, Nat.add_comm 1 i, List.getD_cons_succ]

/-- **An address of whole bytes is the address of the key it spells**, up to its first byte. -/
theorem addrForKey_keyForAddr (h : Whole addr) :
    addrForKey (keyForAddr addr) = nodePrefix ::ᵥ addr.tail := by
  have hones := Address.ones_le addr
  obtain ⟨rest, hrest⟩ : ∃ rest, rest = (List.range (255 - Address.ones addr)).map
    fun i => (Address.payload addr).getD i false := ⟨_, rfl⟩
  have hinv := inv_keyForAddr addr
  rw [← hrest] at hinv
  have hlen : rest.length = 255 - Address.ones addr := by simp [hrest]
  have hleading : leadingOnes (List.replicate (Address.ones addr) true ++ false :: rest) =
      addr.get 1 := by
    have htake : (List.replicate (Address.ones addr) true ++ false :: rest).takeWhile id =
        List.replicate (Address.ones addr) true := by
      rw [List.takeWhile_append_of_pos (by simp)]
      simp
    rw [leadingOnes, htake, List.length_replicate, Nat.min_eq_left hones]
    exact UInt8.ofNat_toNat
  have hpayload : addrPayload (List.replicate (Address.ones addr) true ++ false :: rest) =
      addr.tail.tail := by
    have hdrop : (List.replicate (Address.ones addr) true ++ false :: rest).dropWhile id =
        false :: rest := by
      rw [List.dropWhile_append_of_pos (by simp)]
      simp
    have hback : packBits 14 (Address.payload addr) = addr.tail.tail := by
      rw [← packBits_bitsOf addr.tail.tail, Address.payload]
      congr 2
      obtain ⟨l, hl⟩ := addr
      match l with
      | _ :: _ :: l => rfl
    rw [addrPayload, hdrop, List.drop_one, List.tail_cons, ← hback, hlen]
    refine packBits_congr fun i _ => ?_
    rcases Nat.lt_or_ge i (8 * ((255 - Address.ones addr) / 8)) with hi | hi
    · have hi' : i < 255 - Address.ones addr := by omega
      simp [List.getD_eq_getElem?_getD, hi, hrest, hi']
    · rw [h i hi, List.getD_eq_default _ _ (by simp; omega)]
  have htail : addr.get 1 ::ᵥ addr.tail.tail = addr.tail := by
    obtain ⟨l, hl⟩ := addr
    match l, hl with
    | _ :: _ :: l, _ => rfl
  rw [addrForKey, hinv, hleading, hpayload, htail]

end

/-! ## The addresses of a key -/

section

variable (k : Key)

/-- The address of a key stops at the last whole byte. -/
theorem whole_addrForKey : Whole (addrForKey k) := by
  obtain ⟨inv, hinv⟩ : ∃ inv, inv = (bitsOf k.toList).map not := ⟨_, rfl⟩
  have hlen : inv.length = 256 := by
    rw [hinv, List.length_map, length_bitsOf, k.toList_length]
    rfl
  obtain ⟨rest, hrest⟩ : ∃ rest, rest = (inv.dropWhile id).drop 1 := ⟨_, rfl⟩
  have haddr : addrForKey k = nodePrefix ::ᵥ leadingOnes inv ::ᵥ
      packBits 14 (rest.take (8 * (rest.length / 8))) := by rw [hrest, hinv]; rfl
  have hones : rest.length ≤ 255 - Address.ones (addrForKey k) := by
    have hsum : (inv.takeWhile id).length + (inv.dropWhile id).length = 256 := by
      rw [← List.length_append, List.takeWhile_append_dropWhile, hlen]
    have hcount : Address.ones (addrForKey k) = min (inv.takeWhile id).length 255 := by
      rw [haddr]
      show (leadingOnes inv).toNat = _
      rw [leadingOnes, UInt8.toNat_ofNat']
      omega
    rw [hcount, hrest, List.length_drop]
    omega
  have hpayload : Address.payload (addrForKey k) =
      bitsOf (packBits 14 (rest.take (8 * (rest.length / 8)))).toList := by rw [haddr]; rfl
  intro i hi
  rw [hpayload, bitsOf_packBits]
  rcases Nat.lt_or_ge i (8 * 14) with hlt | hge
  · have hshort : (rest.take (8 * (rest.length / 8))).length ≤ i := by
      rw [List.length_take]
      omega
    simp [List.getD_eq_getElem?_getD, hlt, List.getElem?_eq_none hshort]
  · exact List.getD_eq_default _ _ (by simpa using hge)

/-- The first half of an address of whole bytes is one. -/
theorem whole_subnetAddr {addr : Address} (h : Whole addr) (p : UInt8) :
    Whole (subnetAddr ((p ::ᵥ addr.tail).take 8)) := by
  obtain ⟨l, hl⟩ := addr
  match l, hl with
  | a₀ :: a₁ :: rest, hl =>
    intro i hi
    have hwhole := h i hi
    change (bitsOf rest).getD i false = false at hwhole
    show (bitsOf (rest.take 6 ++ List.replicate 8 0)).getD i false = false
    have hdigits : i = 8 * (i / 8) + i % 8 := by omega
    have hmod : i % 8 < 8 := Nat.mod_lt _ (by decide)
    rw [hdigits, getD_bitsOf _ _ _ hmod] at hwhole ⊢
    have hlen : (rest.take 6).length = 6 := by
      have hrest : rest.length = 14 := by simpa using hl
      simp [hrest]
    rcases Nat.lt_or_ge (i / 8) 6 with hlt | hge
    · rw [List.getD_append _ _ _ _ (by omega)]
      simpa [List.getD_eq_getElem?_getD, hlt] using hwhole
    · have hzero : ∀ j < 8, bitAt 0 j = false := by decide
      rw [List.getD_append_right _ _ _ _ (by omega), List.getD_eq_getElem?_getD,
        List.getElem?_getD_replicate_default_eq, hzero _ hmod]

theorem Address.head_subnet (addr : Address) : (Address.subnet addr).head = addr.head := by
  obtain ⟨l, hl⟩ := addr
  match l, hl with
  | _ :: _, _ => rfl

theorem isSubnet_of_subnet {addr : Address} (h : Address.subnet addr = subnetForKey k) :
    Address.isSubnet addr = true := by
  have hmine : subnetForKey k =
      Address.subnet (((addrForKey k).head ||| subnetBit) ::ᵥ (addrForKey k).tail) := rfl
  have hhead : (addrForKey k).head = nodePrefix := by simp only [addrForKey, List.Vector.head_cons]
  rw [Address.isSubnet, ← Address.head_subnet, h, hmine, Address.head_subnet, List.Vector.head_cons,
    hhead]
  rfl

theorem xkey_keyForAddr {addr : Address} (h : Whole addr) :
    xkey (keyForAddr addr) = keyForSubnet ((nodePrefix ||| subnetBit) ::ᵥ addr.tail |>.take 8) := by
  rw [xkey, subnetForKey, addrForKey_keyForAddr addr h]
  rfl

theorem xkey_xkey : xkey (xkey k) = xkey k := by
  have hwhole : Whole (subnetAddr (subnetForKey k)) := whole_subnetAddr (whole_addrForKey k) _
  have hkey : xkey k = keyForAddr (subnetAddr (subnetForKey k)) := rfl
  rw [hkey, xkey_keyForAddr hwhole]
  rfl

/-- **Whoever looks up an address of a key meets the key**: the address spells a partial key
with the same transform. Taking the address of that key, or the transform twice, changes
nothing. -/
theorem xkey_lookupKeyForAddr :
    (∀ a : Address, a = addrForKey k ∨ Address.subnet a = subnetForKey k →
      xkey (lookupKeyForAddr a) = xkey k) ∧
    addrForKey (keyForAddr (addrForKey k)) = addrForKey k ∧ xkey (xkey k) = xkey k := by
  refine ⟨?_, ?_, xkey_xkey k⟩
  · rintro a (rfl | hsubnet)
    · have hnode : Address.isSubnet (addrForKey k) = false := rfl
      rw [lookupKeyForAddr, hnode, if_neg Bool.false_ne_true, xkey_keyForAddr (whole_addrForKey k)]
      rfl
    · rw [lookupKeyForAddr, if_pos (isSubnet_of_subnet k hsubnet), hsubnet]
      exact xkey_xkey k
  · rw [addrForKey_keyForAddr _ (whole_addrForKey k)]
    rfl

end

/-- The all-zero key: 256 leading ones, counted as 255, and an address in its subnet. -/
theorem xkey_lookupKeyForAddr_zero :
    addrForKey (List.Vector.replicate 32 0) = 2 ::ᵥ 255 ::ᵥ List.Vector.replicate 14 0 ∧
      xkey (lookupKeyForAddr ⟨[3, 255, 0, 0, 0, 0, 0, 0, 7, 7, 7, 7, 7, 7, 7, 7], rfl⟩) =
        xkey (List.Vector.replicate 32 0) :=
  ⟨by decide +kernel, (xkey_lookupKeyForAddr _).1 _ (.inr (by decide +kernel))⟩

end Roots

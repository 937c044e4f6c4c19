import Roots.Crypto.Sample
import Roots.Multicast

/-!
# Roots.Handshake

The message two nodes exchange when a link comes up (`src/handshake.rs`): a preamble, the length
of what follows, a list of tagged fields and a signature. The reader goes through the fields one
by one and ignores the tags it does not know, so **only the set of its own fields matters**:
`Meta.masked` is what is known of a message after the fields with some tags, and every field of
the message adds its tag to those, in whatever order the fields come.
-/

namespace Roots.Handshake

open Sample (smallKey)

/-! ## Constants -/

/-- `PREAMBLE`. -/
def preamble : Bytes := [109, 101, 116, 97]

/-- `HEADER_LEN`. -/
def headerLen : Nat := 6

/-- `SIG_LEN`. -/
def sigLen : Nat := 64

/-- `FIELD_HEADER_LEN`. -/
def fieldHeaderLen : Nat := 4

/-- `VENDOR_MAX` of `src/peer.rs`. -/
def vendorMax : Nat := 32

def tagMajor : UInt16 := 0
def tagMinor : UInt16 := 1
def tagPubkey : UInt16 := 2
def tagPriority : UInt16 := 3
def tagVendor : UInt16 := 4
def tagFeatures : UInt16 := 5

/-- `Meta`. -/
structure Meta where
  major : UInt16
  minor : UInt16
  publicKey : Key
  priority : UInt8
  vendor : Option Bytes
  features : Option UInt32
deriving DecidableEq

/-- How the codec refuses. -/
inductive MetaError where
  | invalidPreamble
  | invalidLength
  | passwordTooLong
  | badPassword
deriving DecidableEq

/-! ## The code -/

/-- `u32::to_be_bytes`. -/
def beU32 (n : UInt32) : Bytes :=
  [UInt8.ofNat (n.toNat / 16777216), UInt8.ofNat (n.toNat / 65536), UInt8.ofNat (n.toNat / 256),
    UInt8.ofNat n.toNat]

/-- `u32::from_be_bytes` of four bytes. -/
def beU32Of (b : Bytes) : UInt32 :=
  UInt32.ofNat (b.foldl (fun acc x => acc * 256 + x.toNat) 0)

@[simp]
theorem beU32Of_beU32 (n : UInt32) : beU32Of (beU32 n) = n := by
  have hn := n.toNat_lt
  apply UInt32.toNat_inj.mp
  simp only [beU32Of, beU32, List.foldl_cons, List.foldl_nil, UInt8.toNat_ofNat',
    UInt32.toNat_ofNat']
  omega

/-- `keyed_hash`. -/
def keyedHash [Blake2] (publicKey : Key) (password : Bytes) :
    Except MetaError (List.Vector UInt8 64) :=
  if maxPasswordLen < password.length then .error .passwordTooLong
  else if password = [] then .ok (Blake2.hash512 publicKey.toList)
  else .ok (Blake2.mac512 password publicKey.toList)

/-- A tag and its value. -/
structure Field where
  tag : UInt16
  val : Bytes

/-- `push_field`. -/
def Field.bytes (f : Field) : Bytes :=
  beU16 f.tag ++ (beU16 (UInt16.ofNat f.val.length) ++ f.val)

/-- The length of the value can be written down. -/
def Field.Fits (f : Field) : Prop := f.val.length < 65536

/-- The fields that `encode` writes. -/
def Meta.fields (m : Meta) : List Field :=
  [⟨tagMajor, beU16 m.major⟩, ⟨tagMinor, beU16 m.minor⟩, ⟨tagPubkey, m.publicKey.toList⟩,
      ⟨tagPriority, [m.priority]⟩] ++
    (m.vendor.toList.map fun v => ⟨tagVendor, v⟩) ++
    m.features.toList.map fun f => ⟨tagFeatures, beU32 f⟩

/-- Fields, a signature and their length behind the preamble. -/
def message (fields : List Field) (sig : Signature) : Bytes :=
  let body := fields.flatMap Field.bytes ++ sig.toList
  preamble ++ (beU16 (UInt16.ofNat body.length) ++ body)

/-- `Meta::encode`. -/
def Meta.encode [Crypto] [Blake2] (m : Meta) (secret : Key) (password : Bytes) :
    Except MetaError Bytes :=
  if maxPasswordLen < password.length then .error .passwordTooLong
  else
    match keyedHash m.publicKey password with
    | .error e => .error e
    | .ok hash => .ok (message m.fields (Crypto.sign secret hash.toList))

/-- One field of `Meta::decode`. -/
def readField (m : Meta) (tag : UInt16) (val : Bytes) : Except MetaError Meta :=
  if tag = tagMajor then
    if val.length = 2 then .ok { m with major := beU16At val 0 } else .error .invalidLength
  else if tag = tagMinor then
    if val.length = 2 then .ok { m with minor := beU16At val 0 } else .error .invalidLength
  else if tag = tagPubkey then
    match arrayOf keyLen val with
    | some key => .ok { m with publicKey := key }
    | none => .error .invalidLength
  else if tag = tagPriority then
    match val with
    | [b] => .ok { m with priority := b }
    | _ => .error .invalidLength
  else if tag = tagVendor then
    -- An overlong vendor is ignored, an empty one is none.
    if val ≠ [] ∧ val.length ≤ vendorMax then .ok { m with vendor := some val } else .ok m
  else if tag = tagFeatures then
    if val.length = 4 then .ok { m with features := some (beU32Of val) }
    else .error .invalidLength
  else .ok m

/-- The loop of `Meta::decode` over the fields. -/
def readFields (m : Meta) (rest : Bytes) : Except MetaError Meta :=
  if _h : fieldHeaderLen ≤ rest.length then
    let tag := beU16At rest 0
    let len := (beU16At rest 2).toNat
    let after := rest.drop fieldHeaderLen
    if after.length < len then .error .invalidLength
    else
      match readField m tag (after.take len) with
      | .error e => .error e
      | .ok m => readFields m (after.drop len)
  else if rest ≠ [] then .error .invalidLength
  else .ok m
termination_by rest.length
decreasing_by
  rw [List.length_drop, List.length_drop]
  simp only [fieldHeaderLen] at _h ⊢
  omega

/-- The message before any field. -/
def Meta.blank : Meta := ⟨0, 0, List.Vector.replicate 32 0, 0, none, none⟩

/-- The end of `Meta::decode`: the signature is checked under the key that was read. -/
def verified [Crypto] [Blake2] (m : Meta) (sig password : Bytes) : Except MetaError Meta :=
  match keyedHash m.publicKey password with
  | .error e => .error e
  | .ok hash =>
      match arrayOf sigLen sig with
      | none => .error .invalidLength
      | some sig =>
          if Crypto.validKey m.publicKey = false then .error .invalidLength
          else if Crypto.verifyStrict m.publicKey hash.toList sig = false then .error .badPassword
          else .ok m

/-- `Meta::decode`. -/
def Meta.decode [Crypto] [Blake2] (msg password : Bytes) : Except MetaError Meta :=
  if msg.length < headerLen ∨ msg.take 4 ≠ preamble then .error .invalidPreamble
  else
    let bodyLen := (beU16At msg 4).toNat
    if bodyLen < sigLen ∨ msg.length ≠ headerLen + bodyLen then .error .invalidLength
    else
      let body := msg.drop headerLen
      match readFields .blank (body.take (body.length - sigLen)) with
      | .error e => .error e
      | .ok m => verified m (body.drop (body.length - sigLen)) password

/-! ## The loop over the fields -/

theorem Field.bytes_length (f : Field) : f.bytes.length = fieldHeaderLen + f.val.length := by
  simp only [Field.bytes, beU16, fieldHeaderLen, List.length_append, List.length_cons,
    List.length_nil]
  omega

/-- **One turn of the loop** reads one field. -/
theorem readFields_field (m : Meta) {f : Field} (hf : f.Fits) (rest : Bytes) :
    readFields m (f.bytes ++ rest) =
      match readField m f.tag f.val with
      | .error e => .error e
      | .ok m => readFields m rest := by
  have hlong : fieldHeaderLen ≤ (f.bytes ++ rest).length := by
    rw [List.length_append, Field.bytes_length]
    omega
  have hsplit : f.bytes ++ rest =
      beU16 f.tag ++ (beU16 (UInt16.ofNat f.val.length) ++ (f.val ++ rest)) := by
    rw [Field.bytes, List.append_assoc, List.append_assoc]
  have htag : beU16At (f.bytes ++ rest) 0 = f.tag := by
    rw [hsplit]
    exact beU16At_append (b := []) rfl f.tag
  have hlen : (beU16At (f.bytes ++ rest) 2).toNat = f.val.length := by
    have hread : beU16At (f.bytes ++ rest) 2 = UInt16.ofNat f.val.length := by
      rw [hsplit]
      exact beU16At_append rfl _
    rw [hread]
    exact UInt16.toNat_ofNat_of_lt' hf
  have hafter : (f.bytes ++ rest).drop fieldHeaderLen = f.val ++ rest := by
    rw [hsplit]
    rfl
  rw [readFields, dif_pos hlong]
  simp only [htag, hlen, hafter]
  rw [if_neg (by simp), List.take_left, List.drop_left]

theorem readFields_nil (m : Meta) : readFields m [] = .ok m := by
  rw [readFields, dif_neg (by simp [fieldHeaderLen]), if_neg (by simp)]

/-- Two bytes are the number they spell. -/
theorem beU16_ofNat (a b : UInt8) : beU16 (UInt16.ofNat (a.toNat * 256 + b.toNat)) = [a, b] := by
  have ha := a.toNat_lt
  have hb := b.toNat_lt
  have hnat : (UInt16.ofNat (a.toNat * 256 + b.toNat)).toNat = a.toNat * 256 + b.toNat :=
    UInt16.toNat_ofNat_of_lt' (show _ < 65536 by omega)
  have hhigh : UInt8.ofNat ((a.toNat * 256 + b.toNat) / 256) = a := by
    apply UInt8.toNat_inj.mp
    rw [UInt8.toNat_ofNat']
    omega
  have hlow : UInt8.ofNat (a.toNat * 256 + b.toNat) = b := by
    apply UInt8.toNat_inj.mp
    rw [UInt8.toNat_ofNat']
    omega
  rw [beU16, hnat, hhigh, hlow]

/-- What the loop accepts splits into fields. -/
theorem exists_fields {m m' : Meta} {rest : Bytes} (h : readFields m rest = .ok m') :
    ∃ fields : List Field, (∀ f ∈ fields, f.Fits) ∧ rest = fields.flatMap Field.bytes := by
  induction hn : rest.length using Nat.strong_induction_on generalizing m rest with
  | _ n ih =>
    match rest with
    | [] => exact ⟨[], by simp, rfl⟩
    | [_] | [_, _] | [_, _, _] =>
      rw [readFields, dif_neg (by simp [fieldHeaderLen]), if_pos (by simp)] at h
      cases h
    | a :: b :: c :: d :: after =>
      have hlen : (beU16At (a :: b :: c :: d :: after) 2).toNat = c.toNat * 256 + d.toNat := by
        have hc := c.toNat_lt
        have hd := d.toNat_lt
        exact UInt16.toNat_ofNat_of_lt' (show c.toNat * 256 + d.toNat < 65536 by omega)
      rw [readFields, dif_pos (by simp [fieldHeaderLen])] at h
      simp only [hlen, fieldHeaderLen, List.drop_succ_cons, List.drop_zero] at h
      split_ifs at h with hshort
      cases hfield : readField m (beU16At (a :: b :: c :: d :: after) 0)
          (after.take (c.toNat * 256 + d.toNat)) with
      | error e => rw [hfield] at h; cases h
      | ok m₁ =>
        rw [hfield] at h
        have htail : (after.drop (c.toNat * 256 + d.toNat)).length < n := by
          rw [← hn, List.length_drop]
          simp only [List.length_cons]
          omega
        obtain ⟨fields, hfits, hfields⟩ := ih _ htail h rfl
        have hval : (after.take (c.toNat * 256 + d.toNat)).length = c.toNat * 256 + d.toNat := by
          rw [List.length_take]
          omega
        refine ⟨⟨UInt16.ofNat (a.toNat * 256 + b.toNat),
          after.take (c.toNat * 256 + d.toNat)⟩ :: fields, ?_, ?_⟩
        · refine List.forall_mem_cons.mpr ⟨?_, hfits⟩
          have hc := c.toNat_lt
          have hd := d.toNat_lt
          rw [Field.Fits, hval]
          omega
        · rw [List.flatMap_cons, Field.bytes, hval, beU16_ofNat, beU16_ofNat, ← hfields]
          simp

/-! ## Any order, and unknown fields between -/

/-- What is known of a message after fields with these tags. -/
def Meta.masked (m : Meta) (seen : List UInt16) : Meta where
  major := if tagMajor ∈ seen then m.major else 0
  minor := if tagMinor ∈ seen then m.minor else 0
  publicKey := if tagPubkey ∈ seen then m.publicKey else List.Vector.replicate 32 0
  priority := if tagPriority ∈ seen then m.priority else 0
  vendor := if tagVendor ∈ seen then m.vendor else none
  features := if tagFeatures ∈ seen then m.features else none

/-- The tags of the source. -/
def known : List UInt16 :=
  [tagMajor, tagMinor, tagPubkey, tagPriority, tagVendor, tagFeatures]

/-- A vendor that `decode` does not ignore. -/
def Meta.VendorFits (m : Meta) : Prop :=
  ∀ v, m.vendor = some v → 1 ≤ v.length ∧ v.length ≤ vendorMax

theorem mem_fields {m : Meta} {f : Field} (hf : f ∈ m.fields) :
    f = ⟨tagMajor, beU16 m.major⟩ ∨ f = ⟨tagMinor, beU16 m.minor⟩ ∨
      f = ⟨tagPubkey, m.publicKey.toList⟩ ∨ f = ⟨tagPriority, [m.priority]⟩ ∨
      (∃ v, m.vendor = some v ∧ f = ⟨tagVendor, v⟩) ∨
      ∃ n, m.features = some n ∧ f = ⟨tagFeatures, beU32 n⟩ := by
  simpa [Meta.fields, or_assoc, eq_comm] using hf

theorem beU16At_beU16 (n : UInt16) : beU16At (beU16 n) 0 = n := by
  have h : beU16At ([] ++ (beU16 n ++ [])) 0 = n := beU16At_append rfl n
  simpa using h

theorem masked_cons_of_unknown {m : Meta} {seen : List UInt16} {tag : UInt16}
    (h : tag ∉ known) : m.masked (tag :: seen) = m.masked seen := by
  have hne : ∀ t ∈ known, t ≠ tag := fun t ht heq => h (heq ▸ ht)
  simp only [known, List.forall_mem_cons] at hne
  obtain ⟨h₀, h₁, h₂, h₃, h₄, h₅, -⟩ := hne
  simp only [Meta.masked, List.mem_cons, h₀, h₁, h₂, h₃, h₄, h₅, false_or]

theorem readField_unknown {m : Meta} {tag : UInt16} (h : tag ∉ known) (val : Bytes) :
    readField m tag val = .ok m := by
  simp only [known, List.mem_cons, List.not_mem_nil, or_false, not_or] at h
  obtain ⟨h₀, h₁, h₂, h₃, h₄, h₅⟩ := h
  unfold readField
  simp only [h₀, h₁, h₂, h₃, h₄, h₅, if_false]

/-! The fields of a message, read into any other. -/

section Own

variable (m : Meta)

theorem readField_major (n : UInt16) :
    readField m tagMajor (beU16 n) = .ok { m with major := n } := by
  unfold readField
  rw [if_pos rfl, if_pos (show (beU16 n).length = 2 from rfl), beU16At_beU16]

theorem readField_minor (n : UInt16) :
    readField m tagMinor (beU16 n) = .ok { m with minor := n } := by
  unfold readField
  rw [if_neg (by decide), if_pos rfl, if_pos (show (beU16 n).length = 2 from rfl), beU16At_beU16]

theorem readField_pubkey (key : Key) :
    readField m tagPubkey key.toList = .ok { m with publicKey := key } := by
  unfold readField
  rw [if_neg (by decide), if_neg (by decide), if_pos rfl, arrayOf_toList]

theorem readField_priority (b : UInt8) :
    readField m tagPriority [b] = .ok { m with priority := b } := by
  unfold readField
  rw [if_neg (by decide), if_neg (by decide), if_neg (by decide), if_pos rfl]

theorem readField_vendor {v : Bytes} (hv : 1 ≤ v.length ∧ v.length ≤ vendorMax) :
    readField m tagVendor v = .ok { m with vendor := some v } := by
  have hne : v ≠ [] := List.ne_nil_of_length_pos hv.1
  unfold readField
  rw [if_neg (by decide), if_neg (by decide), if_neg (by decide), if_neg (by decide), if_pos rfl,
    if_pos ⟨hne, hv.2⟩]

theorem readField_features (n : UInt32) :
    readField m tagFeatures (beU32 n) = .ok { m with features := some n } := by
  unfold readField
  rw [if_neg (by decide), if_neg (by decide), if_neg (by decide), if_neg (by decide),
    if_neg (by decide), if_pos rfl, if_pos (show (beU32 n).length = 4 from rfl), beU32Of_beU32]

end Own

/-- A field adds its tag to what is known. -/
theorem readField_masked {m : Meta} (hvendor : m.VendorFits) (seen : List UInt16) {f : Field}
    (hf : f ∈ m.fields ∨ f.tag ∉ known) :
    readField (m.masked seen) f.tag f.val = .ok (m.masked (f.tag :: seen)) := by
  rcases hf with hf | hf
  · rcases mem_fields hf with rfl | rfl | rfl | rfl | ⟨v, hv, rfl⟩ | ⟨n, hn, rfl⟩
    · rw [readField_major]
      simp +decide only [Meta.masked, List.mem_cons, if_true, true_or, false_or]
    · rw [readField_minor]
      simp +decide only [Meta.masked, List.mem_cons, if_true, true_or, false_or]
    · rw [readField_pubkey]
      simp +decide only [Meta.masked, List.mem_cons, if_true, true_or, false_or]
    · rw [readField_priority]
      simp +decide only [Meta.masked, List.mem_cons, if_true, true_or, false_or]
    · rw [readField_vendor _ (hvendor v hv)]
      simp +decide only [Meta.masked, List.mem_cons, if_true, true_or, false_or, hv]
    · rw [readField_features]
      simp +decide only [Meta.masked, List.mem_cons, if_true, true_or, false_or, hn]
  · rw [readField_unknown hf, masked_cons_of_unknown hf]

/-- The loop over any fields that are the message's own or unknown. -/
theorem readFields_masked {m : Meta} (hvendor : m.VendorFits) {fields : List Field}
    (hfits : ∀ f ∈ fields, f.Fits) (hfields : ∀ f ∈ fields, f ∈ m.fields ∨ f.tag ∉ known)
    (seen : List UInt16) :
    readFields (m.masked seen) (fields.flatMap Field.bytes) =
      .ok (m.masked ((fields.map Field.tag).reverse ++ seen)) := by
  induction fields generalizing seen with
  | nil => exact readFields_nil _
  | cons f fields ih =>
    have ⟨hf, hfits⟩ := List.forall_mem_cons.mp hfits
    have ⟨hown, hfields⟩ := List.forall_mem_cons.mp hfields
    rw [List.flatMap_cons, readFields_field _ hf, readField_masked hvendor seen hown]
    dsimp only
    rw [ih hfits hfields, List.map_cons, List.reverse_cons, List.append_assoc]
    rfl

/-- All fields of a message make the message. -/
theorem masked_eq {m : Meta} {seen : List UInt16} (h : ∀ f ∈ m.fields, f.tag ∈ seen) :
    m.masked seen = m := by
  have hmajor : tagMajor ∈ seen := h ⟨tagMajor, beU16 m.major⟩ (by simp [Meta.fields])
  have hminor : tagMinor ∈ seen := h ⟨tagMinor, beU16 m.minor⟩ (by simp [Meta.fields])
  have hpubkey : tagPubkey ∈ seen := h ⟨tagPubkey, m.publicKey.toList⟩ (by simp [Meta.fields])
  have hpriority : tagPriority ∈ seen := h ⟨tagPriority, [m.priority]⟩ (by simp [Meta.fields])
  have hvendor : (if tagVendor ∈ seen then m.vendor else none) = m.vendor := by
    cases hv : m.vendor with
    | none => exact ite_self none
    | some v => exact if_pos (h ⟨tagVendor, v⟩ (by simp [Meta.fields, hv]))
  have hfeatures : (if tagFeatures ∈ seen then m.features else none) = m.features := by
    cases hn : m.features with
    | none => exact ite_self none
    | some n => exact if_pos (h ⟨tagFeatures, beU32 n⟩ (by simp [Meta.fields, hn]))
  rw [Meta.masked, if_pos hmajor, if_pos hminor, if_pos hpubkey, if_pos hpriority, hvendor,
    hfeatures]

/-- The fields of a message among unknown ones, in any order, are read to the message. -/
theorem readFields_perm {m : Meta} (hvendor : m.VendorFits) {fields extra : List Field}
    (hperm : fields.Perm (m.fields ++ extra)) (hextra : ∀ f ∈ extra, f.tag ∉ known)
    (hfits : ∀ f ∈ fields, f.Fits) :
    readFields .blank (fields.flatMap Field.bytes) = .ok m := by
  have hblank : Meta.blank = m.masked [] := by simp [Meta.blank, Meta.masked]
  have hown : ∀ f ∈ fields, f ∈ m.fields ∨ f.tag ∉ known := by
    intro f hf
    rcases List.mem_append.mp (hperm.mem_iff.mp hf) with h | h
    · exact Or.inl h
    · exact Or.inr (hextra f h)
  rw [hblank, readFields_masked hvendor hfits hown, List.append_nil, masked_eq]
  intro f hf
  have hmem : f ∈ fields := hperm.mem_iff.mpr (List.mem_append_left _ hf)
  exact List.mem_reverse.mpr (List.mem_map_of_mem hmem)

/-! ## Whole messages -/

/-- The length of the body can be written down. -/
def BodyFits (fields : List Field) : Prop :=
  (fields.flatMap Field.bytes).length + sigLen ≤ 65535

theorem fits_of_bodyFits {fields : List Field} (h : BodyFits fields) : ∀ f ∈ fields, f.Fits := by
  intro f hf
  obtain ⟨before, after, rfl⟩ := List.append_of_mem hf
  rw [BodyFits, List.flatMap_append, List.flatMap_cons, List.length_append, List.length_append,
    Field.bytes_length] at h
  rw [Field.Fits]
  omega

/-- The fields of `encode` are few. -/
theorem bodyFits_fields {m : Meta} (hvendor : m.VendorFits) : BodyFits m.fields := by
  have hv : ((m.vendor.toList.map fun v => (⟨tagVendor, v⟩ : Field)).flatMap Field.bytes).length ≤
      36 := by
    cases hv : m.vendor with
    | none => simp
    | some v =>
      have hle := (hvendor v hv).2
      simp only [vendorMax] at hle
      simp [Field.bytes_length, fieldHeaderLen]
      omega
  have hf : ((m.features.toList.map fun n => (⟨tagFeatures, beU32 n⟩ : Field)).flatMap
      Field.bytes).length ≤ 8 := by
    cases m.features with
    | none => simp
    | some n => simp [Field.bytes_length, fieldHeaderLen, beU32]
  rw [BodyFits, Meta.fields, List.flatMap_append, List.flatMap_append, List.length_append,
    List.length_append]
  simp only [List.flatMap_cons, List.flatMap_nil, List.length_append, List.length_nil,
    Field.bytes_length, fieldHeaderLen, beU16, List.length_cons, m.publicKey.toList_length,
    sigLen, keyLen]
  omega

section

variable [Crypto] [Blake2]

/-- The header and the signature of a message are taken off. -/
theorem decode_message {fields : List Field} (hfits : BodyFits fields) (sig : Signature)
    (password : Bytes) :
    Meta.decode (message fields sig) password =
      match readFields .blank (fields.flatMap Field.bytes) with
      | .error e => .error e
      | .ok m => verified m sig.toList password := by
  obtain ⟨body, hbody⟩ : ∃ body, body = fields.flatMap Field.bytes ++ sig.toList := ⟨_, rfl⟩
  have hlen : body.length = (fields.flatMap Field.bytes).length + sigLen := by
    rw [hbody, List.length_append, sig.toList_length]
    rfl
  have hmsg : message fields sig = preamble ++ (beU16 (UInt16.ofNat body.length) ++ body) := by
    rw [message, hbody]
  have htotal : (message fields sig).length = headerLen + body.length := by
    simp only [hmsg, preamble, beU16, headerLen, List.length_append, List.length_cons,
      List.length_nil]
    omega
  have hcount : (beU16At (message fields sig) 4).toNat = body.length := by
    have hread : beU16At (message fields sig) 4 = UInt16.ofNat body.length := by
      rw [hmsg]
      exact beU16At_append rfl _
    rw [hread]
    exact UInt16.toNat_ofNat_of_lt' (show body.length < 65536 from hlen ▸ Nat.lt_succ_iff.mpr hfits)
  have htake : (message fields sig).take 4 = preamble := by
    rw [hmsg]
    rfl
  have hdrop : (message fields sig).drop headerLen = body := by
    rw [hmsg]
    rfl
  have hfields : body.take (body.length - sigLen) = fields.flatMap Field.bytes := by
    rw [hlen, Nat.add_sub_cancel, hbody, List.take_left]
  have hsig : body.drop (body.length - sigLen) = sig.toList := by
    rw [hlen, Nat.add_sub_cancel, hbody, List.drop_left]
  rw [Meta.decode, if_neg (by rw [htotal, htake]; simp)]
  simp only [hcount, hdrop, hfields, hsig]
  rw [if_neg (by rw [htotal, hlen]; simp)]

/-- What `decode` accepts is a list of fields and a signature behind six bytes. -/
theorem split_of_decode {msg password : Bytes} {m : Meta} (h : Meta.decode msg password = .ok m) :
    ∃ (fields : List Field) (sig : Signature), (∀ f ∈ fields, f.Fits) ∧
      msg.drop headerLen = fields.flatMap Field.bytes ++ sig.toList := by
  unfold Meta.decode at h
  dsimp only at h
  split_ifs at h with hheader hlength
  cases hread : readFields .blank
      ((msg.drop headerLen).take ((msg.drop headerLen).length - sigLen)) with
  | error e => rw [hread] at h; cases h
  | ok m₁ =>
    obtain ⟨fields, hfits, hfields⟩ := exists_fields hread
    have hsig : ((msg.drop headerLen).drop ((msg.drop headerLen).length - sigLen)).length = 64 := by
      rw [List.length_drop, List.length_drop]
      simp only [headerLen, sigLen] at hlength ⊢
      omega
    refine ⟨fields, ⟨_, hsig⟩, hfits, ?_⟩
    rw [← hfields]
    exact (List.take_append_drop _ _).symm

omit [Crypto] in
theorem keyedHash_ok {password : Bytes} (h : password.length ≤ maxPasswordLen) (key : Key) :
    ∃ hash, keyedHash key password = .ok hash := by
  unfold keyedHash
  rw [if_neg (Nat.not_lt.mpr h)]
  split_ifs with hempty
  · exact ⟨_, rfl⟩
  · exact ⟨_, rfl⟩

theorem verified_sign (law : SignCrypto) {m : Meta} {secret : Key}
    (hkey : m.publicKey = Crypto.verifyingKey secret) {password : Bytes}
    {hash : List.Vector UInt8 64} (hhash : keyedHash m.publicKey password = .ok hash) :
    verified m (Crypto.sign secret hash.toList).toList password = .ok m := by
  have hvalid : Crypto.validKey m.publicKey = true := by
    rw [hkey]
    exact law.validKey_verifyingKey secret
  have hverify : Crypto.verifyStrict m.publicKey hash.toList
      (Crypto.sign secret hash.toList) = true := by
    rw [hkey]
    exact law.verify_sign secret hash.toList
  rw [verified, hhash]
  dsimp only
  rw [show arrayOf sigLen (Crypto.sign secret hash.toList).toList =
    some (Crypto.sign secret hash.toList) from arrayOf_toList _]
  dsimp only
  rw [if_neg (by simp [hvalid]), if_neg (by simp [hverify])]

/-- **The handshake round-trips and is forward compatible.** A message is read back under its
password, also with its fields in any other order and with fields of unknown tags among them, as
long as the length of the body can be written down; and a message whose body is not a list of
fields and a signature is refused. -/
theorem meta_codec (law : SignCrypto) :
    (∀ (m : Meta) (secret : Key) (password : Bytes), m.VendorFits →
        m.publicKey = Crypto.verifyingKey secret → password.length ≤ maxPasswordLen →
        ∃ msg sig, m.encode secret password = .ok msg ∧ msg = message m.fields sig ∧
          Meta.decode msg password = .ok m ∧
          ∀ fields extra : List Field, fields.Perm (m.fields ++ extra) →
            (∀ f ∈ extra, f.tag ∉ known) → BodyFits fields →
            Meta.decode (message fields sig) password = .ok m) ∧
      ∀ msg password : Bytes,
        (∀ (fields : List Field) (sig : Signature), (∀ f ∈ fields, f.Fits) →
          msg.drop headerLen ≠ fields.flatMap Field.bytes ++ sig.toList) →
        ∃ e, Meta.decode msg password = .error e := by
  constructor
  · intro m secret password hvendor hkey hpassword
    obtain ⟨hash, hhash⟩ := keyedHash_ok hpassword m.publicKey
    have hdecode : ∀ fields extra : List Field, fields.Perm (m.fields ++ extra) →
        (∀ f ∈ extra, f.tag ∉ known) → BodyFits fields →
        Meta.decode (message fields (Crypto.sign secret hash.toList)) password = .ok m := by
      intro fields extra hperm hextra hbody
      rw [decode_message hbody, readFields_perm hvendor hperm hextra (fits_of_bodyFits hbody)]
      exact verified_sign law hkey hhash
    refine ⟨_, Crypto.sign secret hash.toList, ?_, rfl, ?_, hdecode⟩
    · rw [Meta.encode, if_neg (Nat.not_lt.mpr hpassword), hhash]
    · refine hdecode m.fields [] ?_ (by simp) (bodyFits_fields hvendor)
      rw [List.append_nil]
  · intro msg password hsplit
    cases hdecode : Meta.decode msg password with
    | error e => exact ⟨e, rfl⟩
    | ok m =>
      obtain ⟨fields, sig, hfits, heq⟩ := split_of_decode hdecode
      exact absurd heq (hsplit fields sig hfits)

end

section

attribute [local instance] Sample.lenient constBlake2

/-- A node with the vendor `roots`. -/
def rootsMeta : Meta := ⟨0, 5, smallKey 7, 3, some [114, 111, 111, 116, 115], some 0⟩

theorem meta_codec_roots :
    rootsMeta.publicKey = Crypto.verifyingKey (smallKey 7) ∧
      ∃ msg sig, rootsMeta.encode (smallKey 7) [1, 2] = .ok msg ∧
        msg = message rootsMeta.fields sig ∧ Meta.decode msg [1, 2] = .ok rootsMeta ∧
        ∀ fields extra : List Field, fields.Perm (rootsMeta.fields ++ extra) →
          (∀ f ∈ extra, f.tag ∉ known) → BodyFits fields →
          Meta.decode (message fields sig) [1, 2] = .ok rootsMeta := by
  have hkey : rootsMeta.publicKey = Crypto.verifyingKey (smallKey 7) := by decide
  have hvendor : rootsMeta.VendorFits := by
    intro v hv
    cases hv
    exact ⟨by decide, by decide⟩
  exact ⟨hkey, (meta_codec (Sample.signCrypto)).1 rootsMeta (smallKey 7) [1, 2] hvendor
    hkey (by decide)⟩

end

end Roots.Handshake

import Roots.Wire.Messages

/-!
# Roots.Wire.RoundTrip

What a router writes, the next one reads back: each field of the routing messages is
recovered from its encoding with whatever follows it (`takeUvarint_append`,
`takeKeys_append`, `splitPath_append`), and so is each message (`formats_exact`). A path
only survives the trip if no port of it is zero, which ends a path, and it has at most 128
ports, and what is read always survives another trip.
-/

namespace Roots

namespace Wire

/-! ## Fields -/

@[simp]
theorem takeUvarint_append (v : UInt64) (rest : Bytes) :
    takeUvarint (uvarint v ++ rest) = .ok (v, rest) := by
  rw [takeUvarint, readUvarint_uvarint]
  show (sliceFrom (uvarint v ++ rest) (uvarint v).length >>= fun r => pure (v, r)) = _
  rw [sliceFrom_of_le (by simp), List.drop_left]
  rfl

theorem copyArray_append {n : Nat} (a : List.Vector UInt8 n) (rest : Bytes) :
    copyArray n (a.toList ++ rest) = .ok a := by
  rw [copyArray_of_le (by simp)]
  congr 1
  exact List.Vector.eq _ _ (List.take_left' a.toList_length)

theorem sliceFrom_append {n : Nat} (a : List.Vector UInt8 n) (rest : Bytes) :
    sliceFrom (a.toList ++ rest) n = .ok rest := by
  rw [sliceFrom_of_le (by simp), List.drop_left' a.toList_length]

@[simp]
theorem takeArray_append {n : Nat} (a : List.Vector UInt8 n) (rest : Bytes) :
    takeArray n (a.toList ++ rest) = .ok (a, rest) := by
  rw [takeArray, if_neg (by simp), copyArray_append, sliceFrom_append]
  rfl

@[simp]
theorem takeKeys_append (k k' : Key) (rest : Bytes) :
    takeKeys (k.toList ++ (k'.toList ++ rest)) = .ok ((k, k'), rest) := by
  have hlen : ¬ (k.toList ++ (k'.toList ++ rest)).length < 2 * keyLen := by
    simp only [List.length_append, List.Vector.toList_length]
    omega
  rw [takeKeys, if_neg hlen, copyArray_append, sliceFrom_append]
  simp only [bind, Except.bind, copyArray_append, sliceFrom_append]
  rfl

/-! ## Exact lengths -/

@[simp]
theorem ok_bind {α β : Type} (a : α) (f : α → Except Exit β) : (.ok a >>= f) = f a := rfl

@[simp]
theorem exact_nil {α : Type} (a : α) : exact (a, []) = .ok a := rfl

/-- What is made of the last field is checked against the same rest. -/
theorem exact_bind {α β : Type} (a : α) (rest : Bytes) (f : α → β) :
    (exact (a, rest) >>= fun x => pure (f x)) = exact (f a, rest) := by
  cases rest <;> rfl

/-- `decode` takes back what `encode` wrote, all of it, and refuses it with anything after
it, for the values that can be written down. -/
structure Exact {α : Type} (writable : α → Prop) (encode : α → Bytes)
    (decode : Bytes → Except Exit α) : Prop where
  inverts : ∀ a, writable a → decode (encode a) = .ok a
  refuses : ∀ a, writable a → ∀ suffix, suffix ≠ [] →
    decode (encode a ++ suffix) = .error (.err .invalidLength)

/-- It is enough to know what is left over. -/
theorem Exact.of_append {α : Type} {writable : α → Prop} {encode : α → Bytes}
    {decode : Bytes → Except Exit α}
    (h : ∀ a, writable a → ∀ rest, decode (encode a ++ rest) = exact (a, rest)) :
    Exact writable encode decode where
  inverts a ha := by simpa using h a ha []
  refuses a ha suffix hsuffix := (h a ha suffix).trans (if_neg hsuffix)

/-! ## Paths -/

/-- A path that can be written down and read back. -/
structure Portable (path : List UInt64) : Prop where
  length_le : path.length ≤ 128
  ne_zero : ∀ port ∈ path, port ≠ 0

theorem Portable.nil : Portable [] := ⟨Nat.zero_le _, by simp⟩

theorem appendPath_nil : appendPath [] = uvarint 0 := rfl

theorem appendPath_cons (port : UInt64) (path : List UInt64) :
    appendPath (port :: path) = uvarint port ++ appendPath path := by
  simp [appendPath]

theorem splitPathLoop_append : ∀ (path : List UInt64) (room : Nat) (rest : Bytes),
    path.length ≤ room → (∀ port ∈ path, port ≠ 0) →
    splitPathLoop room (appendPath path ++ rest) = .ok (path, rest) := by
  intro path
  induction path with
  | nil =>
    intro room rest _ _
    cases room <;> simp [splitPathLoop, appendPath_nil, bind, Except.bind] <;> rfl
  | cons port path ih =>
    intro room rest hroom hports
    cases room with
    | zero => simp at hroom
    | succ room =>
      have hport : port ≠ 0 := hports port (by simp)
      have hrest := ih room rest (by simpa using hroom) fun p hp => hports p (by simp [hp])
      rw [splitPathLoop, appendPath_cons, List.append_assoc, takeUvarint_append]
      simp only [bind, Except.bind, if_neg hport, hrest]
      rfl

/-- A portable path reads back, whatever follows it. -/
theorem splitPath_append {path : List UInt64} (h : Portable path) (rest : Bytes) :
    splitPath (appendPath path ++ rest) = .ok (path, rest) :=
  splitPathLoop_append path 128 rest h.length_le h.ne_zero

theorem splitPathLoop_long : ∀ (path : List UInt64) (room : Nat) (rest : Bytes),
    room < path.length → (∀ port ∈ path, port ≠ 0) →
    splitPathLoop room (appendPath path ++ rest) = .error (.err .invalidLength) := by
  intro path
  induction path with
  | nil => simp
  | cons port path ih =>
    intro room rest hroom hports
    have hport : port ≠ 0 := hports port (by simp)
    cases room with
    | zero =>
      rw [splitPathLoop, appendPath_cons, List.append_assoc, takeUvarint_append]
      simp only [bind, Except.bind, if_neg hport]
    | succ room =>
      have hrest := ih room rest (by simpa using hroom) fun p hp => hports p (by simp [hp])
      rw [splitPathLoop, appendPath_cons, List.append_assoc, takeUvarint_append]
      simp only [bind, Except.bind, if_neg hport, hrest]

theorem splitPathLoop_sound : ∀ (room : Nat) (buf : Bytes) (path : List UInt64) (rest : Bytes),
    splitPathLoop room buf = .ok (path, rest) →
      path.length ≤ room ∧ ∀ port ∈ path, port ≠ 0 := by
  intro room
  induction room with
  | zero =>
    intro buf path rest h
    obtain ⟨⟨v, tail⟩, -, h⟩ := bind_eq_ok h
    dsimp only at h
    split_ifs at h
    cases h
    simp
  | succ room ih =>
    intro buf path rest h
    obtain ⟨⟨v, tail⟩, -, h⟩ := bind_eq_ok h
    dsimp only at h
    split_ifs at h with hzero
    · cases h
      simp
    · obtain ⟨⟨ports, rest'⟩, hloop, h⟩ := bind_eq_ok h
      cases h
      obtain ⟨hlen, hports⟩ := ih tail ports rest' hloop
      exact ⟨Nat.succ_le_succ hlen, List.forall_mem_cons.mpr ⟨hzero, hports⟩⟩

/-- What is read is portable. -/
theorem splitPath_sound {buf : Bytes} {path : List UInt64} {rest : Bytes}
    (h : splitPath buf = .ok (path, rest)) : Portable path :=
  have hsound := splitPathLoop_sound 128 buf path rest h
  ⟨hsound.1, hsound.2⟩

end Wire

open Wire

/-! ## Messages -/

section Read

variable {buf : Bytes}

theorem PathNotify.portable_of_decodeExact {n : PathNotify}
    (h : PathNotify.decodeExact buf = .ok n) : Portable n.path ∧ Portable n.info.path := by
  obtain ⟨⟨path, rest⟩, hpath, h⟩ := bind_eq_ok h
  obtain ⟨⟨watermark, rest⟩, -, h⟩ := bind_eq_ok h
  obtain ⟨⟨⟨source, dest⟩, rest⟩, -, h⟩ := bind_eq_ok h
  obtain ⟨info, hinfo, h⟩ := bind_eq_ok h
  cases h
  obtain ⟨⟨info', rest'⟩, hdecode, hexact⟩ := bind_eq_ok hinfo
  obtain ⟨⟨seq, rest⟩, -, hdecode⟩ := bind_eq_ok hdecode
  obtain ⟨⟨path', rest⟩, hpath', hdecode⟩ := bind_eq_ok hdecode
  obtain ⟨⟨sig, rest⟩, -, hdecode⟩ := bind_eq_ok hdecode
  cases hdecode
  rw [exact] at hexact
  split_ifs at hexact
  cases hexact
  exact ⟨splitPath_sound hpath, splitPath_sound hpath'⟩

theorem PathBroken.portable_of_decodeExact {b : PathBroken}
    (h : PathBroken.decodeExact buf = .ok b) : Portable b.path := by
  obtain ⟨⟨path, rest⟩, hpath, h⟩ := bind_eq_ok h
  obtain ⟨⟨watermark, rest⟩, -, h⟩ := bind_eq_ok h
  obtain ⟨⟨source, dest⟩, -, h⟩ := bind_eq_ok h
  cases h
  exact splitPath_sound hpath

theorem Traffic.portable_of_decode {t : Traffic} (h : Traffic.decode buf = .ok t) :
    Portable t.path ∧ Portable t.from := by
  obtain ⟨⟨path, rest⟩, hpath, h⟩ := bind_eq_ok h
  obtain ⟨⟨back, rest'⟩, hback, h⟩ := bind_eq_ok h
  obtain ⟨⟨⟨source, dest⟩, tail⟩, -, h⟩ := bind_eq_ok h
  obtain ⟨⟨watermark, payload⟩, -, h⟩ := bind_eq_ok h
  cases h
  exact ⟨splitPath_sound hpath, splitPath_sound hback⟩

end Read

theorem SigReq.decode_append (req : SigReq) (rest : Bytes) :
    SigReq.decode (req.encode ++ rest) = .ok (req, rest) := by
  simp only [encode, decode, List.append_assoc, takeUvarint_append, bind, Except.bind]
  rfl

theorem SigRes.decode_append (res : SigRes) (rest : Bytes) :
    SigRes.decode (res.encode ++ rest) = .ok (res, rest) := by
  simp only [encode, decode, List.append_assoc, SigReq.decode_append, takeUvarint_append,
    takeArray_append, bind, Except.bind]
  rfl

theorem Announce.decodeExact_append (ann : Announce) (rest : Bytes) :
    Announce.decodeExact (ann.encode ++ rest) = exact (ann, rest) := by
  simp only [encode, decodeExact, List.append_assoc, takeKeys_append, SigRes.decode_append,
    takeArray_append, ok_bind]
  exact exact_bind ann.sig rest fun sig => { ann with sig }

theorem Announce.decodeExact_encode (ann : Announce) :
    Announce.decodeExact ann.encode = .ok ann := by
  simpa using ann.decodeExact_append []

theorem PathLookup.decodeExact_encode (l : PathLookup) (h : Portable l.from) :
    PathLookup.decodeExact l.encode = .ok l := by
  have hpath := splitPath_append h []
  rw [List.append_nil] at hpath
  simp only [encode, decodeExact, List.append_assoc, takeKeys_append, bind, Except.bind, hpath]
  rfl

/-- A lookup with a longer path is written down and never read back. -/
theorem PathLookup.decodeExact_long {l : PathLookup} (hlong : 128 < l.from.length)
    (hports : ∀ port ∈ l.from, port ≠ 0) :
    PathLookup.decodeExact l.encode = .error (.err .invalidLength) := by
  have hpath := splitPathLoop_long l.from 128 [] hlong hports
  rw [List.append_nil] at hpath
  rw [PathLookup.encode, PathLookup.decodeExact, List.append_assoc, takeKeys_append]
  simp only [bind, Except.bind, splitPath, hpath]

theorem NotifyInfo.decode_append (info : NotifyInfo) (h : Portable info.path) (rest : Bytes) :
    NotifyInfo.decode (info.encode ++ rest) = .ok (info, rest) := by
  simp only [encode, bytesForSig, sigBytes, decode, List.append_assoc, takeUvarint_append, bind,
    Except.bind, splitPath_append h, takeArray_append]
  rfl

theorem PathNotify.decodeExact_append (n : PathNotify) (hpath : Portable n.path)
    (hinfo : Portable n.info.path) (rest : Bytes) :
    PathNotify.decodeExact (n.encode ++ rest) = exact (n, rest) := by
  simp only [encode, decodeExact, List.append_assoc, splitPath_append hpath, takeUvarint_append,
    takeKeys_append, n.info.decode_append hinfo, ok_bind]
  exact exact_bind n.info rest fun info => { n with info }

theorem PathNotify.decodeExact_encode (n : PathNotify) (hpath : Portable n.path)
    (hinfo : Portable n.info.path) : PathNotify.decodeExact n.encode = .ok n := by
  simpa using n.decodeExact_append hpath hinfo []

theorem PathBroken.decodeExact_append (b : PathBroken) (h : Portable b.path) (rest : Bytes) :
    PathBroken.decodeExact (b.encode ++ rest) = exact (b, rest) := by
  simp only [encode, decodeExact, List.append_assoc, splitPath_append h, takeUvarint_append,
    takeKeys_append, ok_bind]
  exact exact_bind (b.source, b.dest) rest fun keys => { b with source := keys.1, dest := keys.2 }

theorem PathBroken.decodeExact_encode (b : PathBroken) (h : Portable b.path) :
    PathBroken.decodeExact b.encode = .ok b := by
  simpa using b.decodeExact_append h []

theorem Traffic.decode_bytes (t : Traffic) (hpath : Portable t.path) (hfrom : Portable t.from) :
    Traffic.decode t.bytes = .ok t := by
  simp only [bytes, decode, List.append_assoc, splitPath_append hpath, splitPath_append hfrom,
    takeKeys_append, takeUvarint_append, bind, Except.bind]
  rfl

/-- **The routing formats round-trip and are exact.** Each message with portable paths is
read back from its encoding without a byte left over, and the five that `dispatch_frame`
checks for their length are refused with anything after them. -/
theorem formats_exact :
    (∀ req : SigReq, SigReq.decode req.encode = .ok (req, [])) ∧
    (∀ res : SigRes, SigRes.decode res.encode = .ok (res, [])) ∧
    (∀ info : NotifyInfo, Portable info.path → NotifyInfo.decode info.encode = .ok (info, [])) ∧
    (∀ l : PathLookup, Portable l.from → PathLookup.decodeExact l.encode = .ok l ∧
      ∃ rest, takeKeys l.encode = .ok ((l.source, l.dest), rest) ∧
        splitPath rest = .ok (l.from, [])) ∧
    (∀ t : Traffic, Portable t.path → Portable t.from → (t.encode >>= Traffic.decode) = .ok t) ∧
    Exact (fun _ => True) SigReq.encode (fun buf => SigReq.decode buf >>= exact) ∧
    Exact (fun _ => True) SigRes.encode (fun buf => SigRes.decode buf >>= exact) ∧
    Exact (fun _ => True) Announce.encode Announce.decodeExact ∧
    Exact (fun n => Portable n.path ∧ Portable n.info.path) PathNotify.encode
      PathNotify.decodeExact ∧
    Exact (fun b => Portable b.path) PathBroken.encode PathBroken.decodeExact := by
  refine ⟨fun req => ?_, fun res => ?_, fun info h => ?_, fun l h => ⟨l.decodeExact_encode h, ?_⟩,
    fun t hpath hfrom => ?_, .of_append fun req _ rest => ?_, .of_append fun res _ rest => ?_,
    .of_append fun ann _ => ann.decodeExact_append, .of_append fun n h => ?_,
    .of_append fun b => b.decodeExact_append⟩
  · simpa using req.decode_append []
  · simpa using res.decode_append []
  · simpa using info.decode_append h []
  · refine ⟨appendPath l.from, ?_, ?_⟩
    · rw [PathLookup.encode, List.append_assoc, takeKeys_append]
    · simpa using splitPath_append h []
  · rw [t.encode_eq, ok_bind, t.decode_bytes hpath hfrom]
  · rw [req.decode_append, ok_bind]
  · rw [res.decode_append, ok_bind]
  · exact n.decodeExact_append h.1 h.2

end Roots

import Roots.Lib.Slice
import Roots.Wire.RoundTrip
import Roots.Wire.Stream

/-!
# Roots.Wire.Fill

The writers of `src/frame.rs` and `src/traffic.rs` that fill a buffer of the caller's: a uvarint,
a path, a frame and a traffic packet, each with the size that is computed for it beforehand.

**They write the bytes that the appending code pushes**, and the sizes are right, so the `expect`s
on them hold. One bound is not computed: the length of a frame is written into five bytes first,
and a frame that is too long for them stops the program (`encodeFrame_eq`).
-/

namespace Roots

open Slice Wire

/-! ## Integers and paths -/

/-- The loop of `write_uvarint` at byte `n`, with nine rounds of fuel as in `uvarintLoop`. -/
def writeUvarintLoop : Nat → Bytes → Nat → UInt64 → Except Exit (Bytes × Nat)
  | 0, out, n, v => do
      let out ← put .panic out n v.toUInt8
      return (out, n + 1)
  | fuel + 1, out, n, v =>
      if v < 0x80 then do
        let out ← put .panic out n v.toUInt8
        return (out, n + 1)
      else do
        let out ← put .panic out n (v.toUInt8 ||| 0x80)
        writeUvarintLoop fuel out (n + 1) (v >>> 7)

/-- `write_uvarint`: the buffer and the number of bytes that were written. -/
def writeUvarint (out : Bytes) (v : UInt64) : Except Exit (Bytes × Nat) :=
  writeUvarintLoop 9 out 0 v

/-- The loop of `write_path` at byte `i`. -/
def writePathLoop : List UInt64 → Bytes → Nat → Except Exit (Bytes × Nat)
  | [], out, i => .ok (out, i)
  | p :: path, out, i => do
      let (out, n) ← within .panic out i fun tail => writeUvarint tail p
      writePathLoop path out (i + n)

/-- `write_path`. -/
def writePath (out : Bytes) (path : List UInt64) : Except Exit (Bytes × Unit) := do
  let (out, i) ← writePathLoop path out 0
  let out ← put .panic out i 0
  return (out, ())

private theorem putLast_eq (done rest : Bytes) (b : UInt8) :
    (do
      let out ← put .panic (done ++ rest) done.length b
      return (out, done.length + 1) : Except Exit (Bytes × Nat)) =
      if 1 ≤ rest.length then .ok (done ++ [b] ++ rest.drop 1, done.length + 1)
      else .error .panic := by
  cases rest with
  | nil =>
    rw [List.append_nil, put_full]
    rfl
  | cons b' rest =>
    rw [put_done]
    rfl

theorem writeUvarintLoop_eq (fuel : Nat) (v : UInt64) (done rest : Bytes) :
    writeUvarintLoop fuel (done ++ rest) done.length v =
      if (uvarintLoop fuel v).length ≤ rest.length then
        .ok (done ++ uvarintLoop fuel v ++ rest.drop (uvarintLoop fuel v).length,
          done.length + (uvarintLoop fuel v).length)
      else .error .panic := by
  induction fuel generalizing v done rest with
  | zero => exact putLast_eq done rest v.toUInt8
  | succ fuel ih =>
    rw [writeUvarintLoop, uvarintLoop]
    by_cases h : v < 0x80
    · rw [if_pos h, if_neg (UInt64.not_le.mpr h)]
      exact putLast_eq done rest v.toUInt8
    · rw [if_neg h, if_pos (UInt64.not_lt.mp h)]
      cases rest with
      | nil =>
        rw [List.append_nil, put_full]
        rfl
      | cons b rest =>
        -- The byte that was written joins what is done.
        have hih := ih (v >>> 7) (done ++ [v.toUInt8 ||| 0x80]) rest
        rw [List.length_append, List.length_singleton] at hih
        rw [put_done, ok_bind, hih]
        simp only [List.length_cons, Nat.add_le_add_iff_right, List.drop_succ_cons,
          List.append_assoc, List.singleton_append, Nat.add_assoc, Nat.add_comm 1]

/-- `write_uvarint` writes what `append_uvarint` pushes. -/
theorem writeUvarint_fills (v : UInt64) :
    Fills Exit.panic (writeUvarint · v) (uvarint v) (uvarint v).length := by
  intro out
  have h := writeUvarintLoop_eq 9 v [] out
  rw [List.length_nil, Nat.zero_add] at h
  exact h

theorem writePathLoop_eq (path : List UInt64) (done rest : Bytes) :
    writePathLoop path (done ++ rest) done.length =
      if (path.flatMap uvarint).length ≤ rest.length then
        .ok (done ++ path.flatMap uvarint ++ rest.drop (path.flatMap uvarint).length,
          done.length + (path.flatMap uvarint).length)
      else .error .panic := by
  induction path generalizing done rest with
  | nil =>
    rw [writePathLoop]
    simp
  | cons p path ih =>
    rw [writePathLoop, (writeUvarint_fills p).within_done, List.flatMap_cons, List.length_append]
    by_cases hp : (uvarint p).length ≤ rest.length
    · have hih := ih (done ++ uvarint p) (rest.drop (uvarint p).length)
      rw [List.length_append] at hih
      rw [if_pos hp]
      refine hih.trans ?_
      rw [List.length_drop, List.drop_drop, List.append_assoc done, Nat.add_assoc]
      exact if_congr (by omega) rfl rfl
    · rw [if_neg hp, if_neg (by omega)]
      rfl

/-- `write_path` writes what `append_path` appends. -/
theorem writePath_fills (path : List UInt64) :
    Fills Exit.panic (writePath · path) (appendPath path) () := by
  intro out
  have hloop := writePathLoop_eq path [] out
  rw [List.length_nil, List.nil_append, List.nil_append, Nat.zero_add] at hloop
  obtain ⟨ports, hports⟩ : ∃ ports, ports = path.flatMap uvarint := ⟨_, rfl⟩
  have happend : appendPath path = ports ++ [0] := by
    rw [appendPath, ← hports]
    rfl
  rw [← hports] at hloop
  show writePath out path = _
  rw [writePath, hloop, happend, List.length_append, List.length_singleton]
  by_cases hfit : ports.length ≤ out.length
  · rw [if_pos hfit]
    -- The terminator goes to the first byte after the ports, if there is one.
    cases hrest : out.drop ports.length with
    | nil =>
      have hfull : out.length ≤ ports.length := List.drop_eq_nil_iff.mp hrest
      rw [if_neg (by omega), ok_bind]
      show (put Exit.panic (ports ++ []) ports.length 0 >>= fun out => pure (out, ())) = _
      rw [List.append_nil, put_full]
      rfl
    | cons b rest =>
      have hroom := congrArg List.length hrest
      rw [List.length_drop, List.length_cons] at hroom
      rw [if_pos (by omega), ← List.drop_drop, hrest, ok_bind]
      show (put Exit.panic (ports ++ b :: rest) ports.length 0 >>= fun out => pure (out, ())) = _
      rw [put_done]
      rfl
  · rw [if_neg hfit, if_neg (by omega)]
    rfl

/-! ## Packets -/

namespace Traffic

/-- `Traffic::encode_to` into a buffer: its contents and the number of bytes that were written. The
`debug_assert` at its end is kept. -/
def encodeInto (t : Traffic) (out : Bytes) : Except Exit (Bytes × Nat) :=
  if out.length < t.encodedLen then .error (.err .invalidLength)
  else do
    let i := 0
    let (out, _) ← within .panic out i fun tail => writePath tail t.path
    let i := i + pathLen t.path
    let (out, _) ← within .panic out i fun tail => writePath tail t.from
    let i := i + pathLen t.from
    let out ← copyAt .panic out i t.source.toList
    let i := i + keyLen
    let out ← copyAt .panic out i t.dest.toList
    let i := i + keyLen
    let (out, n) ← within .panic out i fun tail => writeUvarint tail t.watermark
    let i := i + n
    let out ← copyAt .panic out i t.payload
    let i := i + t.payload.length
    if i = t.encodedLen then .ok (out, i) else .error .panic

/-- `Traffic::encode` as it is written: a buffer of the computed size is filled. -/
def fill (t : Traffic) : Except Exit Bytes :=
  match t.encodeInto (List.replicate t.encodedLen 0) with
  | .ok (out, n) => if n = out.length then .ok out else .error .panic
  | .error _ => .error .panic

theorem encodeInto_eq (t : Traffic) {out : Bytes} (h : t.encodedLen ≤ out.length) :
    t.encodeInto out = .ok (t.bytes ++ out.drop t.encodedLen, t.encodedLen) := by
  -- What has been written before each of the six writes.
  obtain ⟨b₁, hb₁⟩ : ∃ b₁, b₁ = appendPath t.path := ⟨_, rfl⟩
  obtain ⟨b₂, hb₂⟩ : ∃ b₂, b₂ = b₁ ++ appendPath t.from := ⟨_, rfl⟩
  obtain ⟨b₃, hb₃⟩ : ∃ b₃, b₃ = b₂ ++ t.source.toList := ⟨_, rfl⟩
  obtain ⟨b₄, hb₄⟩ : ∃ b₄, b₄ = b₃ ++ t.dest.toList := ⟨_, rfl⟩
  obtain ⟨b₅, hb₅⟩ : ∃ b₅, b₅ = b₄ ++ uvarint t.watermark := ⟨_, rfl⟩
  have hbytes : t.bytes = b₅ ++ t.payload := by rw [bytes, hb₅, hb₄, hb₃, hb₂, hb₁]
  have hi₁ : 0 + pathLen t.path = b₁.length := by rw [hb₁, appendPath_length, Nat.zero_add]
  have hi₂ : b₁.length + pathLen t.from = b₂.length := by
    rw [hb₂, List.length_append, appendPath_length]
  have hi₃ : b₂.length + keyLen = b₃.length := by
    rw [hb₃, List.length_append, List.Vector.toList_length]
  have hi₄ : b₃.length + keyLen = b₄.length := by
    rw [hb₄, List.length_append, List.Vector.toList_length]
  have hi₅ : b₄.length + (uvarint t.watermark).length = b₅.length := by
    rw [hb₅, List.length_append]
  have hi₆ : b₅.length + t.payload.length = t.encodedLen := by
    rw [← bytes_length, hbytes, List.length_append]
  have h₁ : within .panic ([] ++ out.drop 0) ([] : Bytes).length (writePath · t.path) =
      .ok ([] ++ appendPath t.path ++ out.drop ([] ++ appendPath t.path).length, ()) :=
    (writePath_fills t.path).within_next (by rw [List.nil_append, ← hb₁]; omega)
  rw [List.nil_append, List.nil_append, ← hb₁] at h₁
  have h₂ : within .panic (b₁ ++ out.drop b₁.length) b₁.length (writePath · t.from) =
      .ok (b₂ ++ out.drop b₂.length, ()) := by
    rw [hb₂]
    exact (writePath_fills t.from).within_next (by rw [← hb₂]; omega)
  have h₃ : copyAt Exit.panic (b₂ ++ out.drop b₂.length) b₂.length t.source.toList =
      .ok (b₃ ++ out.drop b₃.length) := by
    rw [hb₃]
    exact copyAt_next (by rw [← hb₃]; omega)
  have h₄ : copyAt Exit.panic (b₃ ++ out.drop b₃.length) b₃.length t.dest.toList =
      .ok (b₄ ++ out.drop b₄.length) := by
    rw [hb₄]
    exact copyAt_next (by rw [← hb₄]; omega)
  have h₅ : within .panic (b₄ ++ out.drop b₄.length) b₄.length (writeUvarint · t.watermark) =
      .ok (b₅ ++ out.drop b₅.length, (uvarint t.watermark).length) := by
    rw [hb₅]
    exact (writeUvarint_fills t.watermark).within_next (by rw [← hb₅]; omega)
  have h₆ : copyAt Exit.panic (b₅ ++ out.drop b₅.length) b₅.length t.payload =
      .ok (t.bytes ++ out.drop t.encodedLen) := by
    rw [← bytes_length, hbytes]
    exact copyAt_next (by rw [← hbytes, bytes_length]; exact h)
  rw [encodeInto, if_neg (Nat.not_lt.mpr h)]
  simp only [hi₁, hi₂, hi₃, hi₄]
  rw [show within Exit.panic out 0 (fun tail => writePath tail t.path) = _ from h₁, ok_bind, h₂,
    ok_bind, h₃, ok_bind, h₄, ok_bind, h₅, ok_bind]
  simp only [hi₅]
  rw [h₆, ok_bind, hi₆, if_pos rfl]

/-- The buffer has the size of what is written, so `encode` fills all of it. -/
theorem fill_eq (t : Traffic) : t.fill = .ok t.bytes := by
  have hlen : (List.replicate t.encodedLen (0 : UInt8)).length = t.encodedLen :=
    List.length_replicate
  rw [fill, t.encodeInto_eq hlen.ge, List.drop_eq_nil_of_le hlen.le, List.append_nil]
  exact if_pos t.bytes_length.symm

end Traffic

/-! ## Frames -/

/-- `MAX_LEN_PREFIX`. -/
def maxLenPrefix : Nat := 5

/-- The loop of `wire_len`: the bytes of the length so far and what is left of it, with nine rounds
of fuel as in `uvarintLoop`. -/
def wireLenLoop : Nat → UInt64 → UInt64 → UInt64
  | 0, len, _ => len
  | fuel + 1, len, rest => if rest ≥ 0x80 then wireLenLoop fuel (len + 1) (rest >>> 7) else len

/-- `wire_len`. -/
def wireLen (payloadLen : Nat) : UInt64 :=
  let body := UInt64.ofNat payloadLen + 1
  wireLenLoop 9 1 body + body

/-- `encode_frame_to`: the buffer and the number of bytes that were written. -/
def encodeFrameTo (ftype : FrameType) (payload out : Bytes) : Except Exit (Bytes × Nat) := do
  let (len, n) ← writeUvarint (List.replicate maxLenPrefix 0) (UInt64.ofNat (payload.length + 1))
  let need := n + 1 + payload.length
  if out.length < need then .error (.err .invalidLength)
  else do
    let out ← copyAt .panic out 0 (len.take n)
    let out ← put .panic out n ftype.toByte
    let out ← copyAt .panic out (n + 1) payload
    return (out, need)

/-- `encode_frame`, with its `expect`. -/
def encodeFrame (ftype : FrameType) (payload : Bytes) : Except Exit Bytes :=
  match encodeFrameTo ftype payload
      (List.replicate ((wireLen payload.length).toNat + maxLenPrefix) 0) with
  | .ok (out, n) => .ok (out.take n)
  | .error _ => .error .panic

theorem wireLenLoop_eq (fuel : Nat) (len rest : UInt64) :
    wireLenLoop fuel len rest + 1 = len + UInt64.ofNat (uvarintLoop fuel rest).length := by
  induction fuel generalizing len rest with
  | zero => rfl
  | succ fuel ih =>
    rw [wireLenLoop, uvarintLoop]
    split_ifs
    · rw [ih, List.length_cons, UInt64.ofNat_add, UInt64.add_assoc, UInt64.add_comm 1]
      rfl
    · rfl

/-- `wire_len` counts the bytes of the length and those behind it. -/
theorem wireLen_eq (n : Nat) :
    wireLen n = UInt64.ofNat ((uvarint (UInt64.ofNat (n + 1))).length + (n + 1)) := by
  have hloop := wireLenLoop_eq 9 1 (UInt64.ofNat (n + 1))
  have hlen : wireLenLoop 9 1 (UInt64.ofNat (n + 1)) =
      UInt64.ofNat (uvarint (UInt64.ofNat (n + 1))).length := by
    rw [UInt64.add_comm] at hloop
    exact (UInt64.add_right_inj 1).mp hloop
  rw [UInt64.ofNat_add, ← hlen, UInt64.ofNat_add]
  rfl

/-- `encode_frame_to` writes the frame, if its length fits the five bytes that are kept for it and
the frame fits the buffer. -/
theorem encodeFrameTo_eq {f : Frame} {out : Bytes} (hlen : (uvarint f.len).length ≤ maxLenPrefix)
    (hroom : f.encode.length ≤ out.length) :
    encodeFrameTo f.ftype f.payload out =
      .ok (f.encode ++ out.drop f.encode.length, f.encode.length) := by
  obtain ⟨b₁, hb₁⟩ : ∃ b₁, b₁ = uvarint f.len := ⟨_, rfl⟩
  obtain ⟨b₂, hb₂⟩ : ∃ b₂, b₂ = b₁ ++ [f.ftype.toByte] := ⟨_, rfl⟩
  have hencode : f.encode = b₂ ++ f.payload := by
    rw [Frame.encode, Frame.body, hb₂, hb₁, List.append_assoc]
    rfl
  have hi₂ : b₁.length + 1 = b₂.length := by
    rw [hb₂, List.length_append, List.length_singleton]
  have hneed : b₂.length + f.payload.length = f.encode.length := by
    rw [hencode, List.length_append]
  have h₀ : writeUvarint (List.replicate maxLenPrefix 0) (UInt64.ofNat (f.payload.length + 1)) =
      .ok (b₁ ++ (List.replicate maxLenPrefix 0).drop b₁.length, b₁.length) := by
    rw [hb₁]
    exact (writeUvarint_fills f.len _).trans (if_pos (by rw [List.length_replicate]; exact hlen))
  have h₁ : copyAt Exit.panic ([] ++ out.drop 0) ([] : Bytes).length b₁ =
      .ok ([] ++ b₁ ++ out.drop ([] ++ b₁).length) :=
    copyAt_next (by rw [List.nil_append]; omega)
  have h₂ : put Exit.panic (b₁ ++ out.drop b₁.length) b₁.length f.ftype.toByte =
      .ok (b₂ ++ out.drop b₂.length) := by
    rw [hb₂]
    exact put_next (by rw [← hb₂]; omega)
  have h₃ : copyAt Exit.panic (b₂ ++ out.drop b₂.length) b₂.length f.payload =
      .ok (f.encode ++ out.drop f.encode.length) := by
    rw [hencode]
    exact copyAt_next (by rw [← hencode]; exact hroom)
  rw [encodeFrameTo, h₀, ok_bind]
  simp only [hi₂, hneed, List.take_left]
  rw [if_neg (by omega), show copyAt Exit.panic out 0 b₁ = _ from h₁, ok_bind, List.nil_append, h₂,
    ok_bind, h₃]
  rfl

/-- A frame whose length takes at most five bytes is written, in as many bytes as `wire_len`
says. -/
theorem encodeFrame_of_lt (f : Frame) (h : f.payload.length + 1 < 2 ^ 35) :
    encodeFrame f.ftype f.payload = .ok f.encode ∧
      (wireLen f.payload.length).toNat = f.encode.length := by
  have htoNat : f.len.toNat = f.payload.length + 1 := by
    rw [Frame.len, UInt64.toNat_ofNat', Nat.mod_eq_of_lt (by omega)]
  have hfive : (uvarint f.len).length ≤ 4 + 1 := by
    rw [uvarint_length_le_iff, htoNat]
    exact h
  have hlength : f.encode.length = (uvarint f.len).length + (f.payload.length + 1) := by
    rw [Frame.encode, List.length_append, Frame.length_body]
  have hwire : (wireLen f.payload.length).toNat = f.encode.length := by
    rw [wireLen_eq, hlength, UInt64.toNat_ofNat', Nat.mod_eq_of_lt]
    · rfl
    · show (uvarint f.len).length + (f.payload.length + 1) < 2 ^ 64
      omega
  refine ⟨?_, hwire⟩
  rw [encodeFrame, encodeFrameTo_eq hfive (by rw [List.length_replicate, hwire]; omega)]
  simp

/-- A longer one stops the program: its length does not fit. -/
theorem encodeFrame_of_ge (f : Frame) (h : 2 ^ 35 ≤ f.payload.length + 1) :
    encodeFrame f.ftype f.payload = .error .panic := by
  suffices hto : ∃ e, encodeFrameTo f.ftype f.payload
      (List.replicate ((wireLen f.payload.length).toNat + maxLenPrefix) 0) = .error e by
    obtain ⟨e, he⟩ := hto
    rw [encodeFrame, he]
  have hwrite := writeUvarint_fills f.len (List.replicate maxLenPrefix 0)
  rw [List.length_replicate] at hwrite
  have hten : (uvarint f.len).length ≤ 9 + 1 :=
    uvarint_length_le_iff.mpr (lt_of_lt_of_le f.len.toNat_lt (by decide))
  have hmod : f.len.toNat = (f.payload.length + 1) % 2 ^ 64 := UInt64.toNat_ofNat'
  by_cases hfive : (uvarint f.len).length ≤ maxLenPrefix
  · -- Only a length of 64 bits or more could be cut to one that fits. The buffer is cut, too.
    have hlt : f.len.toNat < 2 ^ 35 := (uvarint_length_le_iff (n := 4)).mp hfive
    have hwire : (wireLen f.payload.length).toNat =
        ((uvarint f.len).length + (f.payload.length + 1)) % 2 ^ 64 := by
      rw [wireLen_eq]
      exact UInt64.toNat_ofNat'
    refine ⟨.err .invalidLength, ?_⟩
    rw [if_pos hfive] at hwrite
    rw [encodeFrameTo, show writeUvarint _ (UInt64.ofNat (f.payload.length + 1)) = _ from hwrite,
      ok_bind]
    have hmax : maxLenPrefix = 5 := rfl
    have hshort : (List.replicate ((wireLen f.payload.length).toNat + maxLenPrefix) (0 : UInt8)).length
        < (uvarint f.len).length + 1 + f.payload.length := by
      rw [List.length_replicate, hwire]
      omega
    simp only [if_pos hshort]
  · rw [if_neg hfive] at hwrite
    refine ⟨.panic, ?_⟩
    rw [encodeFrameTo]
    exact congrArg (· >>= _) hwrite

/-! ## The code agrees -/

/-- **All code that knows the format agrees on it**: what is appended is read back, the writers
into a buffer write the same bytes, and each size that is computed is the size of what is
written. A frame whose length does not fit its five bytes stops the program. -/
theorem uvarint_code_agrees :
    (∀ v s, readUvarint (appendUvarint [] v ++ s) = some (v, (appendUvarint [] v).length)) ∧
    (∀ v, uvarintLen v = (appendUvarint [] v).length) ∧
    (∀ v out, writeUvarint out v =
      if uvarintLen v ≤ out.length then
        .ok (appendUvarint [] v ++ out.drop (uvarintLen v), uvarintLen v)
      else .error .panic) ∧
    (∀ path out, writePath out path =
      if pathLen path ≤ out.length then .ok (appendPath path ++ out.drop (pathLen path), ())
      else .error .panic) ∧
    (∀ t : Traffic, ∃ b, t.fill = .ok b ∧ t.encode = .ok b ∧ b.length = t.encodedLen) ∧
    (∀ ftype payload, payload.length + 1 < 2 ^ 35 →
      ∃ b, encodeFrame ftype payload = .ok b ∧ b.length = (wireLen payload.length).toNat) ∧
    ∀ ftype payload, 2 ^ 35 ≤ payload.length + 1 → encodeFrame ftype payload = .error .panic := by
  refine ⟨fun v s => ?_, fun v => ?_, fun v out => ?_, fun path out => ?_, fun t => ?_,
    fun ftype payload h => ?_, fun ftype payload => encodeFrame_of_ge ⟨ftype, payload⟩⟩
  · rw [appendUvarint, List.nil_append, readUvarint_uvarint]
  · rw [appendUvarint, List.nil_append, uvarint_length]
  · rw [appendUvarint, List.nil_append, ← uvarint_length]
    exact writeUvarint_fills v out
  · rw [← appendPath_length]
    exact writePath_fills path out
  · exact ⟨t.bytes, t.fill_eq, t.encode_eq, t.bytes_length⟩
  · obtain ⟨hencode, hlen⟩ := encodeFrame_of_lt ⟨ftype, payload⟩ h
    exact ⟨_, hencode, hlen.symm⟩

/-- A packet of 127 bytes, whose length takes two. -/
theorem uvarint_code_agrees_packet :
    (List.replicate 127 (7 : UInt8)).length + 1 < 2 ^ 35 ∧
      ∃ b, encodeFrame .traffic (List.replicate 127 7) = .ok b ∧ b.length = 2 + 1 + 127 := by
  have hfits : (List.replicate 127 (7 : UInt8)).length + 1 < 2 ^ 35 := by
    rw [List.length_replicate]
    decide
  obtain ⟨b, hb, hlen⟩ := uvarint_code_agrees.2.2.2.2.2.1 .traffic _ hfits
  exact ⟨hfits, b, hb, hlen.trans (by decide +kernel)⟩

/-- For a payload of 32 GiB less one byte the length takes six bytes. `wire_len` counts them, and
`encode_frame` has no room for them. -/
theorem encodeFrame_long :
    encodeFrame .traffic (List.replicate 34359738367 0) = .error .panic ∧
      (wireLen 34359738367).toNat = 6 + 1 + 34359738367 := by
  have hlong : ∀ n, n = 34359738367 →
      encodeFrame .traffic (List.replicate n 0) = .error .panic := by
    intro n hn
    refine encodeFrame_of_ge ⟨.traffic, List.replicate n 0⟩ ?_
    rw [List.length_replicate, hn]
    decide
  exact ⟨hlong _ rfl, by decide +kernel⟩

end Roots

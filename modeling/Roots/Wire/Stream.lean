import Roots.Wire.Frame
import Roots.Wire.Messages

/-!
# Roots.Wire.Stream

Frames on the byte stream of one link. `write_frame_to` writes a frame behind its length, and
`read_frame_from` takes it off again: one byte at a time up to the end of the length, and then as
many as the length says, whenever they arrive.

What the reader has taken lives in the future that reads. The serve loop drops that future when
its slice is over, and the bytes it had taken are gone with it. So **the frames that are read are
those that were written exactly when no read is dropped that has taken a byte**
(`frames_survive_iff`).
-/

namespace Roots

open Wire

/-! ## The codec -/

/-- `ftype as u8`. -/
def FrameType.toByte : FrameType → UInt8
  | .dummy => 0
  | .keepAlive => 1
  | .sigReq => 2
  | .sigRes => 3
  | .announce => 4
  | .bloomFilter => 5
  | .pathLookup => 6
  | .pathNotify => 7
  | .pathBroken => 8
  | .traffic => 9

@[simp]
theorem FrameType.fromByte_toByte (ftype : FrameType) : fromByte ftype.toByte = .ok ftype := by
  cases ftype <;> rfl

/-- A frame as the loop dispatches it. -/
structure Frame where
  ftype : FrameType
  payload : Bytes
deriving DecidableEq

namespace Frame

/-- The length that `encode_frame` writes first. -/
def len (f : Frame) : UInt64 := UInt64.ofNat (f.payload.length + 1)

/-- What follows the length. -/
def body (f : Frame) : Bytes := f.ftype.toByte :: f.payload

/-- `encode_frame`. -/
def encode (f : Frame) : Bytes := uvarint f.len ++ f.body

/-- The frame is short enough to be read. -/
def Fits (f : Frame) : Prop := f.payload.length + 1 ≤ maxMessageSize

instance (f : Frame) : Decidable f.Fits :=
  inferInstanceAs (Decidable (f.payload.length + 1 ≤ maxMessageSize))

theorem length_body (f : Frame) : f.body.length = f.payload.length + 1 := rfl

theorem Fits.toNat_len {f : Frame} (h : f.Fits) : f.len.toNat = f.body.length := by
  have hlt : f.payload.length + 1 < 2 ^ 64 := lt_of_le_of_lt h (by decide)
  rw [len, UInt64.toNat_ofNat', Nat.mod_eq_of_lt hlt, length_body]

theorem Fits.decodeBody {f : Frame} (h : f.Fits) :
    decodeBody f.body = .ok (f.ftype, f.payload) := by
  rw [body, Roots.decodeBody, if_neg (Nat.not_lt.mpr h), FrameType.fromByte_toByte]
  rfl

end Frame

/-- What is written for a list of frames. -/
def encodeAll (frames : List Frame) : Bytes := frames.flatMap Frame.encode

/-! ## Reading -/

/-- How far `read_frame_from` has come: the bytes of the length so far, or the bytes of the body
so far, which are not all. -/
inductive Progress where
  | length (bytes : Bytes)
  | body (len : Nat) (bytes : Bytes) (short : bytes.length < len)
deriving DecidableEq

/-- What a byte does to a read. -/
inductive Outcome where
  | more (p : Progress)
  | frame (f : Frame)
  | failed (e : Exit)
deriving DecidableEq

namespace Progress

/-- A read that has not taken anything yet. -/
def start : Progress := .length []

theorem toNat_pos {n : UInt64} (h : n ≠ 0) : 0 < n.toNat :=
  Nat.pos_of_ne_zero fun hzero => h (UInt64.toNat_inj.mp hzero)

/-- The length is complete. -/
def openBody (bytes : Bytes) : Outcome :=
  match readUvarint bytes with
  | none => .failed (.err .invalidLength)
  | some (len, _) =>
      if h : len = 0 ∨ maxMessageSize < len.toNat then .failed (.err .invalidLength)
      else .more (.body len.toNat [] (toNat_pos fun hzero => h (.inl hzero)))

/-- The body is complete. -/
def close (bytes : Bytes) : Outcome :=
  match decodeBody bytes with
  | .error e => .failed e
  | .ok (ftype, payload) => .frame ⟨ftype, payload⟩

/-- `read_frame_from` gets one more byte. -/
def push (b : UInt8) : Progress → Outcome
  | .length bytes =>
      if b < 0x80 then openBody (bytes ++ [b])
      else if 10 ≤ (bytes ++ [b]).length then .failed (.err .invalidLength)
      else .more (.length (bytes ++ [b]))
  | .body len bytes _ =>
      if h : (bytes ++ [b]).length < len then .more (.body len (bytes ++ [b]) h)
      else close (bytes ++ [b])

/-- `read_frame_from` on the bytes that are there: how it ends or where it waits, and the bytes it
leaves. -/
def poll (p : Progress) : Bytes → Outcome × Bytes
  | [] => (.more p, [])
  | b :: rest =>
      match p.push b with
      | .more p' => p'.poll rest
      | outcome => (outcome, rest)

end Progress

/-! ## The stream of a link -/

/-- A link from its writer to the loop that reads it. `sent` is on its way, `arrived` can be read,
`progress` is the read that is pending, `frames` are the frames the loop has dispatched and
`failed` says that a read has failed, for which the loop drops the link. -/
structure Line where
  sent : Bytes
  arrived : Bytes
  progress : Progress
  frames : List Frame
  failed : Bool
deriving DecidableEq

namespace Line

/-- What happens to a link: some of what was written arrives, the loop polls its read, and the end
of a slice drops the read. -/
inductive Event where
  | arrive (n : Nat)
  | poll
  | cancel
deriving DecidableEq

/-- The frames are written. -/
def start (frames : List Frame) : Line where
  sent := encodeAll frames
  arrived := []
  progress := .start
  frames := []
  failed := false

/-- A read that ends is followed by a new one. -/
def settle (l : Line) : Outcome × Bytes → Line
  | (.more progress, arrived) => { l with arrived, progress }
  | (.frame f, arrived) => { l with arrived, progress := .start, frames := l.frames ++ [f] }
  | (.failed _, arrived) => { l with arrived, progress := .start, failed := true }

def take (l : Line) : Event → Line
  | .arrive n => { l with sent := l.sent.drop n, arrived := l.arrived ++ l.sent.take n }
  | .poll => if l.failed then l else l.settle (l.progress.poll l.arrived)
  | .cancel => { l with progress := .start }

def run (l : Line) (events : List Event) : Line := events.foldl take l

/-- `P` holds before every event of a run. -/
def Along (l : Line) (P : Line → Event → Prop) : List Event → Prop
  | [] => True
  | event :: events => P l event ∧ (l.take event).Along P events

/-- A read that is dropped has not taken a byte. -/
def Kept (l : Line) (event : Event) : Prop := event = .cancel → l.progress = .start

instance (l : Line) (event : Event) : Decidable (l.Kept event) :=
  inferInstanceAs (Decidable (event = .cancel → l.progress = .start))

/-- All bytes have arrived, and they have been read, as far as they can be. -/
def Over (l : Line) : Prop := l.sent = [] ∧ (l.arrived = [] ∨ l.failed = true)

instance (l : Line) : Decidable l.Over :=
  inferInstanceAs (Decidable (l.sent = [] ∧ (l.arrived = [] ∨ l.failed = true)))

end Line

/-! ## Reading a frame that was written -/

/-- A read has taken all of the frame but `left`. -/
def Progress.Reads (f : Frame) (left : Bytes) : Progress → Prop
  | .length bytes => bytes ++ left = f.encode ∧ bytes.length < (uvarint f.len).length
  | .body len bytes _ => len = f.body.length ∧ bytes ++ left = f.body

namespace Progress

variable {f : Frame} {p : Progress} {left : Bytes}

theorem reads_start (f : Frame) : start.Reads f f.encode :=
  ⟨rfl, uvarint_length_pos f.len⟩

theorem Reads.ne_nil (h : p.Reads f left) : left ≠ [] := by
  cases p with
  | length bytes =>
    rintro rfl
    obtain ⟨heq, hlt⟩ := h
    rw [List.append_nil] at heq
    rw [heq, Frame.encode, List.length_append] at hlt
    omega
  | body len bytes short =>
    rintro rfl
    obtain ⟨rfl, heq⟩ := h
    rw [List.append_nil] at heq
    rw [heq] at short
    exact Nat.lt_irrefl _ short

/-- A byte of the length. -/
theorem Reads.push_length {bytes : Bytes} {b : UInt8} (hfits : f.Fits)
    (h : (Progress.length bytes).Reads f (b :: left)) :
    ∃ p', (Progress.length bytes).push b = .more p' ∧ p'.Reads f left := by
  obtain ⟨heq, hlt⟩ := h
  obtain ⟨init, last, hconcat, hlast, hinit, hlen⟩ := uvarint_eq_concat f.len
  rw [Frame.encode, hconcat] at heq
  rw [hconcat, List.length_append, List.length_singleton] at hlt
  have hnext : (bytes ++ b :: left)[bytes.length]? = some b := by simp
  rw [heq] at hnext
  by_cases hend : bytes.length = init.length
  · -- The last byte of the length: the body follows.
    obtain ⟨rfl, hrest⟩ := List.append_inj (heq.trans (List.append_assoc init [last] f.body)) hend
    obtain ⟨rfl, rfl⟩ := List.cons.inj hrest
    have hread : readUvarint (bytes ++ [b]) = some (f.len, (uvarint f.len).length) := by
      rw [← hconcat, ← List.append_nil (uvarint f.len), readUvarint_uvarint, List.append_nil]
    have hlength := hfits.toNat_len
    have hzero : f.len ≠ 0 := by
      intro hzero
      rw [hzero, Frame.length_body] at hlength
      cases hlength
    have hgood : ¬ (f.len = 0 ∨ maxMessageSize < f.len.toNat) := by
      rw [not_or, hlength]
      exact ⟨hzero, Nat.not_lt.mpr hfits⟩
    refine ⟨.body f.len.toNat [] (toNat_pos hzero), ?_, hlength, rfl⟩
    simp only [push, if_pos hlast, openBody, hread, dif_neg hgood]
  · -- A byte before it.
    have hbefore : bytes.length < init.length := by omega
    have hb : ¬ b < 0x80 := by
      rw [List.getElem?_append_left (by rw [List.length_append]; omega),
        List.getElem?_append_left hbefore] at hnext
      exact hinit b (List.mem_of_getElem? hnext)
    refine ⟨.length (bytes ++ [b]), ?_, ?_, ?_⟩
    · have hshort : ¬ 10 ≤ (bytes ++ [b]).length := by
        rw [List.length_append, List.length_singleton]
        omega
      simp only [push, if_neg hb, if_neg hshort]
    · rw [List.append_assoc, List.singleton_append, heq, Frame.encode, hconcat]
    · rw [hconcat, List.length_append, List.length_append, List.length_singleton,
        List.length_singleton]
      omega

/-- A byte of the body. -/
theorem Reads.push_body {len : Nat} {bytes : Bytes} {short : bytes.length < len} {b : UInt8}
    (hfits : f.Fits) (h : (Progress.body len bytes short).Reads f (b :: left)) :
    (∃ p', (Progress.body len bytes short).push b = .more p' ∧ p'.Reads f left) ∨
      left = [] ∧ (Progress.body len bytes short).push b = .frame f := by
  obtain ⟨rfl, heq⟩ := h
  have hlen : f.body.length = (bytes ++ [b]).length + left.length := by
    rw [← heq]
    simp only [List.length_append, List.length_cons, List.length_nil]
    omega
  have htaken : (bytes ++ [b]) ++ left = f.body := by
    rw [List.append_assoc, List.singleton_append, heq]
  cases hleft : left with
  | nil =>
    rw [hleft, List.append_nil] at htaken
    rw [hleft, List.length_nil, Nat.add_zero] at hlen
    refine .inr ⟨rfl, ?_⟩
    simp only [push, dif_neg (Nat.not_lt.mpr (Nat.le_of_eq hlen))]
    rw [htaken, close, hfits.decodeBody]
  | cons c left' =>
    rw [← hleft]
    have hmore : (bytes ++ [b]).length < f.body.length := by
      rw [hlen, hleft, List.length_cons]
      omega
    refine .inl ⟨.body f.body.length (bytes ++ [b]) hmore, ?_, rfl, htaken⟩
    simp only [push, dif_pos hmore]

theorem Reads.push {b : UInt8} (hfits : f.Fits) (h : p.Reads f (b :: left)) :
    (∃ p', p.push b = .more p' ∧ p'.Reads f left) ∨ left = [] ∧ p.push b = .frame f := by
  cases p with
  | length bytes => exact .inl (h.push_length hfits)
  | body len bytes short => exact h.push_body hfits

/-- A poll gets as far as the bytes go: it waits for more of the frame, or returns the frame and
leaves what follows it. -/
theorem Reads.poll {arrived sent tail : Bytes} (hfits : f.Fits) (h : p.Reads f left)
    (hstream : arrived ++ sent = left ++ tail) :
    (∃ p' left', p.poll arrived = (.more p', []) ∧ p'.Reads f left' ∧ sent = left' ++ tail) ∨
      ∃ arrived', p.poll arrived = (.frame f, arrived') ∧ arrived' ++ sent = tail := by
  induction arrived generalizing p left with
  | nil => exact .inl ⟨p, left, rfl, h, hstream⟩
  | cons b arrived ih =>
    cases left with
    | nil => exact absurd rfl h.ne_nil
    | cons c left =>
      obtain ⟨rfl, hrest⟩ := List.cons.inj hstream
      rcases h.push hfits with ⟨p', hpush, hreads⟩ | ⟨rfl, hpush⟩
      · have hpoll : p.poll (b :: arrived) = p'.poll arrived := by
          rw [Progress.poll, hpush]
        rw [hpoll]
        exact ih hreads hrest
      · refine .inr ⟨arrived, ?_, hrest⟩
        rw [Progress.poll, hpush]

end Progress

/-! ## Whole runs -/

namespace Line

variable {l : Line} {frames : List Frame}

/-- The frames are those dispatched and some others, of which the first is being read and the rest
follow on the stream. -/
inductive Intact (frames : List Frame) (l : Line) : Prop
  | done (hframes : l.frames = frames) (hprogress : l.progress = .start)
      (hstream : l.arrived ++ l.sent = []) (hfailed : l.failed = false)
  | reading (f : Frame) (rest : List Frame) (left : Bytes)
      (hframes : l.frames ++ f :: rest = frames) (hreads : l.progress.Reads f left)
      (hstream : l.arrived ++ l.sent = left ++ encodeAll rest) (hfailed : l.failed = false)

/-- A read begins at the first of the frames that are left. -/
theorem intact_of_start {rest : List Frame} (hframes : l.frames ++ rest = frames)
    (hprogress : l.progress = .start) (hstream : l.arrived ++ l.sent = encodeAll rest)
    (hfailed : l.failed = false) : l.Intact frames := by
  cases rest with
  | nil => exact .done (by rwa [List.append_nil] at hframes) hprogress hstream hfailed
  | cons f rest =>
    exact .reading f rest f.encode hframes (hprogress ▸ Progress.reads_start f) hstream hfailed

theorem intact_start (frames : List Frame) : (start frames).Intact frames :=
  intact_of_start rfl rfl rfl rfl

theorem Intact.poll (hfits : ∀ f ∈ frames, f.Fits) (h : l.Intact frames) :
    (l.take .poll).Intact frames := by
  cases h with
  | done hframes hprogress hstream hfailed =>
    obtain ⟨harrived, hsent⟩ := List.append_eq_nil_iff.mp hstream
    have htake : l.take .poll = { l with arrived := [] } := by
      simp only [take, hfailed, harrived, Progress.poll, settle]
      rfl
    rw [htake]
    exact .done hframes hprogress hsent hfailed
  | reading f rest left hframes hreads hstream hfailed =>
    have hf : f.Fits := hfits f (by rw [← hframes]; simp)
    have htake : l.take .poll = l.settle (l.progress.poll l.arrived) := by
      simp only [take, hfailed]
      rfl
    rw [htake]
    rcases hreads.poll hf hstream with ⟨p', left', hpoll, hreads', hsent⟩ | ⟨arrived', hpoll, hrest⟩
    · rw [hpoll]
      exact .reading f rest left' hframes hreads' hsent hfailed
    · rw [hpoll]
      exact intact_of_start (by rw [← hframes]; simp [settle]) rfl hrest hfailed

/-- The step lemma: only a read that has taken bytes and is dropped breaks the stream. -/
theorem Intact.take (hfits : ∀ f ∈ frames, f.Fits) (h : l.Intact frames) {event : Event}
    (hkept : l.Kept event) : (l.take event).Intact frames := by
  cases event with
  | arrive n =>
    have hmoved : (l.take (.arrive n)).arrived ++ (l.take (.arrive n)).sent =
        l.arrived ++ l.sent := by
      simp [Line.take]
    cases h with
    | done hframes hprogress hstream hfailed =>
      exact .done hframes hprogress (hmoved.trans hstream) hfailed
    | reading f rest left hframes hreads hstream hfailed =>
      exact .reading f rest left hframes hreads (hmoved.trans hstream) hfailed
  | poll => exact h.poll hfits
  | cancel =>
    have hsame : l.take .cancel = l := by
      simp only [Line.take, ← hkept rfl]
    rwa [hsame]

/-- The run lemma. -/
theorem Intact.run (hfits : ∀ f ∈ frames, f.Fits) (h : l.Intact frames) {events : List Event}
    (hkept : l.Along Kept events) : (l.run events).Intact frames := by
  induction events generalizing l with
  | nil => exact h
  | cons event events ih => exact ih (h.take hfits hkept.1) hkept.2

theorem Intact.frames_eq (h : l.Intact frames) (hover : l.Over) : l.frames = frames := by
  cases h with
  | done hframes => exact hframes
  | reading f rest left hframes hreads hstream hfailed =>
    obtain ⟨hsent, harrived | hfailed'⟩ := hover
    · rw [hsent, harrived] at hstream
      exact absurd (List.append_eq_nil_iff.mp hstream.symm).1 hreads.ne_nil
    · cases hfailed.symm.trans hfailed'

/-! ## Bytes that are lost -/

end Line

/-- A lower bound of the bytes that a read has taken. -/
def Progress.weight : Progress → Nat
  | .length bytes => bytes.length
  | .body len bytes _ => (uvarint (UInt64.ofNat len)).length + bytes.length

/-- The same of what a read ended with. -/
def Outcome.weight : Outcome → Nat
  | .more p => p.weight
  | .frame f => f.encode.length
  | .failed _ => 0

namespace Progress

theorem weight_eq_zero {p : Progress} : p.weight = 0 ↔ p = .start := by
  cases p with
  | length bytes => simp [weight, start]
  | body len bytes short =>
    have hpos := uvarint_length_pos (UInt64.ofNat len)
    constructor
    · intro h
      simp only [weight] at h
      omega
    · intro h
      cases h

theorem openBody_weight (bytes : Bytes) : (openBody bytes).weight ≤ bytes.length := by
  unfold openBody
  cases hread : readUvarint bytes with
  | none => exact Nat.zero_le _
  | some r =>
    obtain ⟨len, n⟩ := r
    dsimp only
    split
    · exact Nat.zero_le _
    · have hle := uvarint_length_le_of_readUvarint hread
      simp only [Outcome.weight, weight, UInt64.ofNat_toNat, List.length_nil]
      omega

theorem close_weight (bytes : Bytes) :
    (close bytes).weight ≤ (uvarint (UInt64.ofNat bytes.length)).length + bytes.length := by
  cases bytes with
  | nil => exact Nat.zero_le _
  | cons b payload =>
    rw [close, decodeBody]
    split_ifs
    · exact Nat.zero_le _
    · cases FrameType.fromByte b with
      | error e => exact Nat.zero_le _
      | ok ftype =>
        show (Frame.encode ⟨ftype, payload⟩).length ≤ _
        simp [Frame.encode, Frame.len, Frame.body]

/-- A byte adds at most one. -/
theorem push_weight (p : Progress) (b : UInt8) : (p.push b).weight ≤ p.weight + 1 := by
  cases p with
  | length bytes =>
    have hlen : (bytes ++ [b]).length = bytes.length + 1 := by simp
    simp only [push]
    split_ifs
    · exact hlen ▸ openBody_weight (bytes ++ [b])
    · exact Nat.zero_le _
    · exact Nat.le_of_eq hlen
  | body len bytes short =>
    simp only [push]
    split
    · simp only [Outcome.weight, weight, List.length_append, List.length_singleton]
      omega
    · have hfull : (bytes ++ [b]).length = len := by
        rw [List.length_append, List.length_singleton] at *
        omega
      have hclose := close_weight (bytes ++ [b])
      rw [hfull] at hclose
      have hlen : bytes.length + 1 = len := by simpa using hfull
      simp only [weight]
      omega

theorem poll_weight (p : Progress) (arrived : Bytes) :
    (p.poll arrived).1.weight + (p.poll arrived).2.length ≤ p.weight + arrived.length := by
  induction arrived generalizing p with
  | nil => exact le_rfl
  | cons b arrived ih =>
    have hpush := p.push_weight b
    rw [poll, List.length_cons]
    cases hmore : p.push b with
    | more p' =>
      rw [hmore] at hpush
      have hrest := ih p'
      have hweight : p'.weight ≤ p.weight + 1 := hpush
      dsimp only
      omega
    | frame f =>
      rw [hmore] at hpush
      dsimp only
      omega
    | failed e =>
      rw [hmore] at hpush
      dsimp only
      omega

end Progress

namespace Line

variable {l : Line}

/-- The bytes the dispatched frames took at least, and those that are left. -/
def stock (l : Line) : Nat :=
  (encodeAll l.frames).length + l.progress.weight + l.arrived.length + l.sent.length

theorem settle_stock (l : Line) (r : Outcome × Bytes) :
    (l.settle r).stock = (encodeAll l.frames).length + r.1.weight + r.2.length + l.sent.length := by
  obtain ⟨outcome, arrived⟩ := r
  cases outcome with
  | more p => rfl
  | frame f =>
    simp [settle, stock, encodeAll, Outcome.weight, Progress.weight, Progress.start]
  | failed e => rfl

/-- Nothing adds to the stock, and a read that has taken a byte and is dropped takes from it. -/
theorem take_stock (l : Line) (event : Event) :
    (l.take event).stock ≤ l.stock ∧ ((l.take event).stock = l.stock → l.Kept event) := by
  cases event with
  | arrive n =>
    have hsplit : (l.sent.take n).length + (l.sent.drop n).length = l.sent.length := by
      rw [← List.length_append, List.take_append_drop]
    refine ⟨?_, fun _ h => by cases h⟩
    simp only [stock, take, List.length_append]
    omega
  | poll =>
    refine ⟨?_, fun _ h => by cases h⟩
    cases hfailed : l.failed with
    | true => simp [take, hfailed]
    | false =>
      have htake : l.take .poll = l.settle (l.progress.poll l.arrived) := by
        simp only [take, hfailed]
        rfl
      have hweight := l.progress.poll_weight l.arrived
      rw [htake, settle_stock, stock]
      omega
  | cancel =>
    have hstock : l.stock = (l.take .cancel).stock + l.progress.weight := by
      simp only [stock, take, Progress.start, Progress.weight, List.length_nil]
      omega
    refine ⟨by omega, fun heq _ => Progress.weight_eq_zero.mp (by omega)⟩

/-- A run that ends with the stock it began with has dropped nothing. -/
theorem run_stock (l : Line) (events : List Event) :
    (l.run events).stock ≤ l.stock ∧ ((l.run events).stock = l.stock → l.Along Kept events) := by
  induction events generalizing l with
  | nil => exact ⟨le_rfl, fun _ => trivial⟩
  | cons event events ih =>
    obtain ⟨hle, hkept⟩ := l.take_stock event
    obtain ⟨hrest, halong⟩ := ih (l.take event)
    refine ⟨hrest.trans hle, fun heq => ?_⟩
    have hsame : (l.run (event :: events)).stock = ((l.take event).run events).stock := rfl
    exact ⟨hkept (by omega), halong (by omega)⟩

/-- **Frames survive exactly the slices that drop nothing.** Whatever the frames, however their
bytes arrive and whenever the reads are polled and dropped: when all that was written has been
read, the frames that were dispatched are the ones that were written if and only if no read was
dropped after it had taken a byte. -/
theorem frames_survive_iff {frames : List Frame} (hfits : ∀ f ∈ frames, f.Fits)
    {events : List Event} (hover : ((start frames).run events).Over) :
    ((start frames).run events).frames = frames ↔ (start frames).Along Kept events := by
  constructor
  · intro hframes
    obtain ⟨hle, hkept⟩ := (start frames).run_stock events
    have hstart : (start frames).stock = (encodeAll frames).length := by
      simp [stock, start, encodeAll, Progress.weight, Progress.start]
    refine hkept (Nat.le_antisymm hle ?_)
    rw [hstart, stock, hframes]
    omega
  · intro hkept
    exact ((intact_start frames).run hfits hkept).frames_eq hover

/-- The first of two frames arrives in two pieces within one slice. -/
theorem frames_survive_pieces :
    ((start [⟨.traffic, [1, 2]⟩, ⟨.keepAlive, []⟩]).run
      [.arrive 2, .poll, .arrive 4, .poll, .cancel, .poll]).frames =
        [⟨.traffic, [1, 2]⟩, ⟨.keepAlive, []⟩] := by
  refine (frames_survive_iff (by decide) (by decide)).mpr ?_
  exact ⟨by decide, by decide, by decide, by decide, by decide, by decide, trivial⟩

/-- A frame arrives in two pieces and the slice ends between them. The rest of it is read as a
frame that nobody wrote. -/
theorem frame_torn :
    (∀ f ∈ [(⟨.traffic, [1, 2]⟩ : Frame)], f.Fits) ∧
      ((start [⟨.traffic, [1, 2]⟩]).run
        [.arrive 2, .poll, .cancel, .arrive 2, .poll]).Over ∧
      ((start [⟨.traffic, [1, 2]⟩]).run
        [.arrive 2, .poll, .cancel, .arrive 2, .poll]).frames = [⟨.sigReq, []⟩] := by
  decide

end Line

end Roots

import HttpAudioServer.Encoder
import HttpAudioServer.Library.Blocks
import Mathlib.Data.Nat.ModEq

/-! What the encoder is for: it cuts its input into frames, whatever blocks the input
comes in. `Framer` says so without a buffer, a pointer or a loop; the theorems at the
end connect it to `EncoderImpl`. -/
namespace HttpAudioServer

open Blocks

structure Format where
  rate : UInt64
  nChannels : Nat
  frameSize : Nat

def Format.frameLength (fmt : Format) : Nat := fmt.frameSize * fmt.nChannels

/-- The part of the encoder behind its buffer. -/
structure Sink (c : Codec) where
  granule : UInt64
  segment : c.Muxer
  enc : c.Opus
  calls : List CodecCall

structure Framer (c : Codec) where
  format : Format
  pending : List FloatBits
  taken : Nat
  done : Bool
  sink : Sink c

/-- Everything the muxer has passed to `Write`. -/
def written (calls : List CodecCall) : Bytes :=
  calls.flatMap fun
    | .init writes => writes.flatten
    | .opusEncodeFloat _ => []
    | .addFrame _ _ writes => writes.flatten
    | .finalize writes => writes.flatten

/-- The frames handed to `opus_encode_float`. -/
def frames (calls : List CodecCall) : List (List FloatBits) :=
  calls.filterMap fun
    | .opusEncodeFloat frame => some frame
    | _ => none

@[simp] theorem written_append (xs ys : List CodecCall) :
    written (xs ++ ys) = written xs ++ written ys := by
  simp [written]

@[simp] theorem frames_append (xs ys : List CodecCall) :
    frames (xs ++ ys) = frames xs ++ frames ys := by
  simp [frames]

variable {c : Codec}

namespace Sink

def frame (fmt : Format) (bitrate : Nat) (k : Sink c) (frame : List FloatBits) : Sink c :=
  let (enc, size, packet) := c.opusEncodeFloat k.enc bitrate frame
  let k := { k with enc := enc, calls := k.calls ++ [CodecCall.opusEncodeFloat frame] }
  let k :=
    if 0 < size then
      let ts := (k.granule * 1000 * 1000 * 1000) / fmt.rate
      let packet := packet.take size.toNat
      let (segment, writes) := c.addFrame k.segment packet ts
      { k with segment := segment, calls := k.calls ++ [CodecCall.addFrame packet ts writes] }
    else k
  { k with granule := k.granule + UInt64.ofNat fmt.frameSize }

def close (k : Sink c) : Sink c :=
  let (segment, writes) := c.finalize k.segment
  { k with segment := segment, granule := 0, calls := k.calls ++ [CodecCall.finalize writes] }

theorem frames_frame (fmt : Format) (bitrate : Nat) (k : Sink c) (frame : List FloatBits) :
    frames (k.frame fmt bitrate frame).calls = frames k.calls ++ [frame] := by
  simp only [Sink.frame]
  split <;> simp [frames]

theorem frames_foldl (fmt : Format) (bitrate : Nat) (bs : List (List FloatBits)) (k : Sink c) :
    frames (bs.foldl (Sink.frame fmt bitrate) k).calls = frames k.calls ++ bs := by
  induction bs generalizing k with
  | nil => simp
  | cons b bs ih => rw [List.foldl_cons, ih, frames_frame, List.append_assoc, List.singleton_append]

theorem written_frame (fmt : Format) (bitrate : Nat) (k : Sink c) (frame : List FloatBits) :
    ∃ more, written (k.frame fmt bitrate frame).calls = written k.calls ++ more ∧
      (c.Talks → more ≠ []) := by
  by_cases coded : 0 < (c.opusEncodeFloat k.enc bitrate frame).2.1
  · refine ⟨(c.addFrame k.segment ((c.opusEncodeFloat k.enc bitrate frame).2.2.take
      (c.opusEncodeFloat k.enc bitrate frame).2.1.toNat)
      (k.granule * 1000 * 1000 * 1000 / fmt.rate)).2.flatten, ?_, fun talks => talks.writes _ _ _⟩
    simp [Sink.frame, coded, written]
  · refine ⟨[], ?_, fun talks => absurd (talks.size _ _ _) coded⟩
    simp [Sink.frame, coded, written]

theorem written_close (k : Sink c) :
    ∃ more, written k.close.calls = written k.calls ++ more := by
  exact ⟨(c.finalize k.segment).2.flatten, by simp [close, written]⟩

/-- Frames only add to what is written, and each one does if the codec talks. -/
theorem written_foldl (fmt : Format) (bitrate : Nat) (bs : List (List FloatBits)) (k : Sink c) :
    ∃ more, written (bs.foldl (Sink.frame fmt bitrate) k).calls = written k.calls ++ more ∧
      (c.Talks → bs ≠ [] → more ≠ []) := by
  induction bs generalizing k with
  | nil => exact ⟨[], by simp, by simp⟩
  | cons b bs ih =>
    obtain ⟨first, frame, some_first⟩ := written_frame fmt bitrate k b
    obtain ⟨others, later, _⟩ := ih (k.frame fmt bitrate b)
    refine ⟨first ++ others, by rw [List.foldl_cons, later, frame, List.append_assoc], ?_⟩
    intro talks _ nothing
    exact some_first talks (List.append_eq_nil_iff.mp nothing).1

theorem frames_close (k : Sink c) : frames k.close.calls = frames k.calls := by
  simp [close, frames]

end Sink

namespace Framer

def feed (bitrate : Nat) (f : Framer c) (xs : List FloatBits) : Framer c :=
  if f.done then f
  else
    { f with
      pending := rest f.format.frameLength (f.pending ++ xs)
      taken := f.taken + xs.length / f.format.nChannels
      sink := (blocks f.format.frameLength (f.pending ++ xs)).foldl
        (Sink.frame f.format bitrate) f.sink }

/-- One last frame, filled up with zeros, and the end of the file. -/
def finalize (bitrate : Nat) (f : Framer c) : Framer c :=
  if f.done then f
  else
    let padding := List.replicate (f.format.frameLength - f.pending.length) 0
    { f with
      pending := []
      done := true
      sink := (f.sink.frame f.format bitrate (f.pending ++ padding)).close }

@[simp] theorem feed_format (bitrate : Nat) (f : Framer c) (xs : List FloatBits) :
    (f.feed bitrate xs).format = f.format := by
  unfold feed; split <;> rfl

@[simp] theorem feed_done (bitrate : Nat) (f : Framer c) (xs : List FloatBits) :
    (f.feed bitrate xs).done = f.done := by
  unfold feed; split <;> rfl

theorem feed_of_done (bitrate : Nat) {f : Framer c} (closed : f.done = true)
    (xs : List FloatBits) : f.feed bitrate xs = f := by
  simp [feed, closed]

theorem feed_nil (bitrate : Nat) {f : Framer c}
    (partially : f.pending.length < f.format.frameLength) : f.feed bitrate [] = f := by
  obtain ⟨format, pending, taken, done, sink⟩ := f
  cases done <;> simp_all [feed, blocks_of_lt, rest_of_lt]

theorem feed_of_part (bitrate : Nat) {f : Framer c} {xs : List FloatBits}
    (active : f.done = false) (part : (f.pending ++ xs).length < f.format.frameLength) :
    f.feed bitrate xs = { f with
      pending := f.pending ++ xs
      taken := f.taken + xs.length / f.format.nChannels } := by
  simp [feed, active, blocks_of_lt part, rest_of_lt part]

theorem feed_of_full (bitrate : Nat) {f : Framer c} {xs : List FloatBits}
    (active : f.done = false) (positive : 0 < f.format.frameLength)
    (full : (f.pending ++ xs).length = f.format.frameLength) :
    f.feed bitrate xs = { f with
      pending := []
      taken := f.taken + xs.length / f.format.nChannels
      sink := f.sink.frame f.format bitrate (f.pending ++ xs) } := by
  simp [feed, active, blocks_single positive full, rest_single positive full]

theorem finalize_of_active (bitrate : Nat) {f : Framer c} (active : f.done = false) :
    f.finalize bitrate = { f with
      pending := []
      done := true
      sink := (f.sink.frame f.format bitrate
        (f.pending ++ List.replicate (f.format.frameLength - f.pending.length) 0)).close } := by
  simp [finalize, active]

@[simp] theorem finalize_format (bitrate : Nat) (f : Framer c) :
    (f.finalize bitrate).format = f.format := by
  unfold finalize; split <;> rfl

@[simp] theorem finalize_done (bitrate : Nat) (f : Framer c) : (f.finalize bitrate).done = true := by
  unfold finalize; split <;> simp_all

/-- The input may come in any blocks of whole samples. -/
theorem feed_append (bitrate : Nat) (f : Framer c) (positive : 0 < f.format.frameLength)
    {xs : List FloatBits} (whole : f.format.nChannels ∣ xs.length) (ys : List FloatBits) :
    f.feed bitrate (xs ++ ys) = (f.feed bitrate xs).feed bitrate ys := by
  by_cases closed : f.done = true
  · simp [feed, closed]
  · simp [feed, closed, ← List.append_assoc, blocks_append positive (f.pending ++ xs) ys,
      rest_append positive (f.pending ++ xs) ys, Nat.add_div_of_dvd_right whole,
      Nat.add_assoc]

theorem frames_feed (bitrate : Nat) {f : Framer c} (active : f.done = false) (xs : List FloatBits) :
    frames (f.feed bitrate xs).sink.calls =
      frames f.sink.calls ++ blocks f.format.frameLength (f.pending ++ xs) := by
  simp [feed, active, Sink.frames_foldl]

theorem frames_finalize (bitrate : Nat) {f : Framer c} (active : f.done = false) :
    frames (f.finalize bitrate).sink.calls = frames f.sink.calls ++
      [f.pending ++ List.replicate (f.format.frameLength - f.pending.length) 0] := by
  rw [finalize_of_active bitrate active, Sink.frames_close, Sink.frames_frame]

theorem written_feed (bitrate : Nat) (f : Framer c) (xs : List FloatBits) :
    ∃ more, written (f.feed bitrate xs).sink.calls = written f.sink.calls ++ more ∧
      (c.Talks → f.done = false → blocks f.format.frameLength (f.pending ++ xs) ≠ [] → more ≠ []) := by
  by_cases closed : f.done = true
  · exact ⟨[], by simp [feed, closed], by simp [closed]⟩
  · obtain ⟨more, wrote, some_more⟩ := Sink.written_foldl f.format bitrate
      (blocks f.format.frameLength (f.pending ++ xs)) f.sink
    exact ⟨more, by simp [feed, closed, wrote], fun talks _ full => some_more talks full⟩

theorem written_finalize (bitrate : Nat) {f : Framer c} (active : f.done = false) :
    ∃ more, written (f.finalize bitrate).sink.calls = written f.sink.calls ++ more ∧
      (c.Talks → more ≠ []) := by
  rw [finalize_of_active bitrate active]
  obtain ⟨first, frame, some_first⟩ := Sink.written_frame f.format bitrate f.sink
    (f.pending ++ List.replicate (f.format.frameLength - f.pending.length) 0)
  obtain ⟨last, close⟩ := Sink.written_close (f.sink.frame f.format bitrate
    (f.pending ++ List.replicate (f.format.frameLength - f.pending.length) 0))
  refine ⟨first ++ last, by simp only [close, frame, List.append_assoc], fun talks nothing => ?_⟩
  exact some_first talks (List.append_eq_nil_iff.mp nothing).1

theorem frames_whole (bitrate bitrate' : Nat) {f : Framer c} (active : f.done = false)
    (fresh : f.pending = []) (xs : List FloatBits) :
    frames ((f.feed bitrate xs).finalize bitrate').sink.calls =
      frames f.sink.calls ++ framed f.format.frameLength 0 xs := by
  rw [frames_finalize bitrate' (by rw [feed_done, active]), frames_feed bitrate active,
    feed_format, List.append_assoc]
  simp [feed, active, fresh, framed]

end Framer

namespace BufferMkvWriter

theorem writeAll_eq (w : BufferMkvWriter) (blocks : List Bytes) :
    w.writeAll blocks =
      { w with buf := w.buf ++ blocks.flatten
               bytesWritten := w.bytesWritten + blocks.flatten.length } := by
  induction blocks generalizing w with
  | nil => simp [writeAll]
  | cons b blocks ih =>
    have tail := ih (w.write b)
    simp only [writeAll, List.foldl_cons] at tail ⊢
    rw [tail]
    simp [write, Nat.add_assoc]

end BufferMkvWriter

namespace EncoderImpl

def format (e : EncoderImpl c) : Format := ⟨e.rate, e.nChannels, e.frameSize⟩

def sink (e : EncoderImpl c) : Sink c := ⟨e.granule, e.mkvSegment, e.enc, e.calls⟩

/-- What the buffer holds up to its pointer is pending; the floats after it are stale. -/
def view (e : EncoderImpl c) : Framer c where
  format := e.format
  pending := e.buf.take e.bufPtr
  taken := e.taken
  done := e.done
  sink := e.sink

structure Valid (e : EncoderImpl c) : Prop where
  bufLength : e.buf.length = e.frameSize * e.nChannels
  ptrInside : e.bufPtr < e.buf.length
  ptrWhole : e.nChannels ∣ e.bufPtr
  accounted : e.mkvWriter.dumped ++ e.mkvWriter.buf = written e.calls
  position : e.mkvWriter.bytesWritten = (written e.calls).length

theorem create_dumped (c : Codec) (rate : UInt64) (nChannels : Nat) :
    (create c rate nChannels).mkvWriter.dumped = [] := by
  simp [create, BufferMkvWriter.writeAll_eq]

theorem create_valid (rate : UInt64) (nChannels : Nat) (fast : 25 ≤ rate.toNat)
    (channels : 0 < nChannels) : (create c rate nChannels).Valid := by
  have room : 0 < rate.toNat / 25 * nChannels :=
    Nat.mul_pos (Nat.div_pos fast (by decide)) channels
  constructor
  · simp [create]
  · simpa [create] using room
  · simp [create]
  · simp [create, BufferMkvWriter.writeAll_eq, written]
  · simp [create, BufferMkvWriter.writeAll_eq, written]

namespace Valid

variable {e : EncoderImpl c}

theorem length_pending (valid : e.Valid) : e.view.pending.length = e.bufPtr := by
  simp [view, Nat.le_of_lt valid.ptrInside]

theorem pending_lt (valid : e.Valid) : e.view.pending.length < e.format.frameLength := by
  rw [valid.length_pending, Format.frameLength, format, ← valid.bufLength]
  exact valid.ptrInside

theorem frameLength_pos (valid : e.Valid) : 0 < e.format.frameLength :=
  Nat.lt_of_le_of_lt (Nat.zero_le _) valid.pending_lt

theorem channels_pos (valid : e.Valid) : 0 < e.nChannels :=
  Nat.pos_of_mul_pos_left (Nat.lt_of_lt_of_eq (Nat.zero_lt_of_lt valid.ptrInside) valid.bufLength)

end Valid

section EncodeFrame

variable (e : EncoderImpl c) (bitrate : Nat)

@[simp] theorem encodeFrame_buf : (e.encodeFrame bitrate).buf = e.buf := by
  simp only [encodeFrame]
  split <;> rfl

@[simp] theorem encodeFrame_bufPtr : (e.encodeFrame bitrate).bufPtr = 0 := rfl

@[simp] theorem encodeFrame_format : (e.encodeFrame bitrate).format = e.format := by
  simp only [encodeFrame]
  split <;> rfl

@[simp] theorem encodeFrame_done : (e.encodeFrame bitrate).done = e.done := by
  simp only [encodeFrame]
  split <;> rfl

@[simp] theorem encodeFrame_taken : (e.encodeFrame bitrate).taken = e.taken := by
  simp only [encodeFrame]
  split <;> rfl

theorem encodeFrame_sink :
    (e.encodeFrame bitrate).sink = e.sink.frame e.format bitrate e.buf := by
  by_cases coded : 0 < (c.opusEncodeFloat e.enc bitrate e.buf).2.1 <;>
    simp [encodeFrame, Sink.frame, sink, format, coded]

theorem encodeFrame_view :
    (e.encodeFrame bitrate).view = { e.view with
      pending := []
      sink := e.sink.frame e.format bitrate e.buf } := by
  simp [view, encodeFrame_sink]

theorem encodeFrame_writer :
    ∃ writes, (e.encodeFrame bitrate).mkvWriter = e.mkvWriter.writeAll writes ∧
      written (e.encodeFrame bitrate).calls = written e.calls ++ writes.flatten := by
  simp only [encodeFrame]
  split
  · exact ⟨_, rfl, by simp [written]⟩
  · exact ⟨[], rfl, by simp [written]⟩

theorem encodeFrame_dumped :
    (e.encodeFrame bitrate).mkvWriter.dumped = e.mkvWriter.dumped := by
  obtain ⟨writes, writer, _⟩ := encodeFrame_writer e bitrate
  rw [writer, BufferMkvWriter.writeAll_eq]

end EncodeFrame

theorem encodeFrame_valid {e : EncoderImpl c} (bitrate : Nat)
    (bufLength : e.buf.length = e.frameSize * e.nChannels) (room : 0 < e.buf.length)
    (accounted : e.mkvWriter.dumped ++ e.mkvWriter.buf = written e.calls)
    (position : e.mkvWriter.bytesWritten = (written e.calls).length) :
    (e.encodeFrame bitrate).Valid := by
  obtain ⟨writes, hw, hc⟩ := encodeFrame_writer e bitrate
  have hf : (e.encodeFrame bitrate).format = e.format := encodeFrame_format e bitrate
  have frameSize : (e.encodeFrame bitrate).frameSize = e.frameSize := congrArg Format.frameSize hf
  have nChannels : (e.encodeFrame bitrate).nChannels = e.nChannels := congrArg Format.nChannels hf
  constructor
  · rw [encodeFrame_buf, bufLength, frameSize, nChannels]
  · simpa using room
  · simp
  · rw [hw, hc, BufferMkvWriter.writeAll_eq, ← List.append_assoc, accounted]
  · rw [hw, hc, BufferMkvWriter.writeAll_eq, List.length_append, position]

section Round

variable {bitrate : Nat} {l : Loop c}

def floatsIn (l : Loop c) : Nat :=
  min (l.impl.buf.length - l.impl.bufPtr) (l.nSamples * l.impl.nChannels)

theorem floatsIn_whole (valid : l.impl.Valid) : l.impl.nChannels ∣ floatsIn l := by
  have room : l.impl.nChannels ∣ l.impl.buf.length - l.impl.bufPtr :=
    Nat.dvd_sub (valid.bufLength ▸ Nat.dvd_mul_left _ _) valid.ptrWhole
  have input : l.impl.nChannels ∣ l.nSamples * l.impl.nChannels := Nat.dvd_mul_left _ _
  rcases Nat.le_total (l.impl.buf.length - l.impl.bufPtr) (l.nSamples * l.impl.nChannels)
    with h | h
  · rwa [floatsIn, Nat.min_eq_left h]
  · rwa [floatsIn, Nat.min_eq_right h]

/-- The state of one round of `feed` before the full buffer, if it is full, is encoded. -/
def stored (l : Loop c) : EncoderImpl c :=
  { l.impl with
    buf := Memory.overwrite l.impl.buf l.impl.bufPtr (l.pcm.take (floatsIn l))
    bufPtr := l.impl.bufPtr + floatsIn l
    taken := l.impl.taken + floatsIn l / l.impl.nChannels }

theorem round_feed_of_full (full : (stored l).bufPtr = (stored l).buf.length) :
    round bitrate false l = ⟨(stored l).encodeFrame bitrate, l.pcm.drop (floatsIn l),
      l.nSamples - floatsIn l / l.impl.nChannels⟩ :=
  if_pos full

theorem round_feed_of_part (part : (stored l).bufPtr ≠ (stored l).buf.length) :
    round bitrate false l = ⟨stored l, l.pcm.drop (floatsIn l),
      l.nSamples - floatsIn l / l.impl.nChannels⟩ :=
  if_neg part

theorem round_feed_rest :
    (round bitrate false l).pcm = l.pcm.drop (floatsIn l) ∧
    (round bitrate false l).nSamples = l.nSamples - floatsIn l / l.impl.nChannels := by
  by_cases full : (stored l).bufPtr = (stored l).buf.length
  · rw [round_feed_of_full full]
    exact ⟨rfl, rfl⟩
  · rw [round_feed_of_part full]
    exact ⟨rfl, rfl⟩

section Stored

variable (valid : l.impl.Valid) (room : l.nSamples * l.impl.nChannels ≤ l.pcm.length)

include room in
theorem length_copied : (l.pcm.take (floatsIn l)).length = floatsIn l := by
  have input : floatsIn l ≤ l.nSamples * l.impl.nChannels := Nat.min_le_right _ _
  rw [List.length_take]
  omega

include valid in
theorem floatsIn_fits : l.impl.bufPtr + floatsIn l ≤ l.impl.buf.length := by
  have inside := valid.ptrInside
  have space : floatsIn l ≤ l.impl.buf.length - l.impl.bufPtr := Nat.min_le_left _ _
  omega

include valid room

theorem length_stored : (stored l).buf.length = l.impl.buf.length :=
  Memory.length_overwrite (by rw [length_copied room]; exact floatsIn_fits valid)

theorem stored_pending :
    (stored l).view.pending = l.impl.view.pending ++ l.pcm.take (floatsIn l) := by
  have fits : l.impl.bufPtr + (l.pcm.take (floatsIn l)).length ≤ l.impl.buf.length := by
    rw [length_copied room]
    exact floatsIn_fits valid
  have kept := Memory.take_overwrite fits
  rwa [length_copied room] at kept

theorem length_stored_pending :
    (l.impl.view.pending ++ l.pcm.take (floatsIn l)).length = l.impl.bufPtr + floatsIn l := by
  rw [List.length_append, valid.length_pending, length_copied room]

end Stored

theorem round_view (valid : l.impl.Valid) (active : l.impl.done = false)
    (room : l.nSamples * l.impl.nChannels ≤ l.pcm.length) :
    (round bitrate false l).impl.Valid ∧
    (round bitrate false l).impl.view = l.impl.view.feed bitrate (l.pcm.take (floatsIn l)) ∧
    (round bitrate false l).impl.mkvWriter.dumped = l.impl.mkvWriter.dumped := by
  have length := length_stored valid room
  have total := length_stored_pending valid room
  have frameLength : l.impl.view.format.frameLength = l.impl.buf.length := valid.bufLength.symm
  by_cases full : (stored l).bufPtr = (stored l).buf.length
  · have filled : l.impl.bufPtr + floatsIn l = l.impl.buf.length := full.trans length
    have frame : (stored l).buf = l.impl.view.pending ++ l.pcm.take (floatsIn l) := by
      rw [← stored_pending valid room]
      exact (List.take_of_length_le (Nat.le_of_eq full.symm)).symm
    rw [round_feed_of_full full]
    refine ⟨encodeFrame_valid bitrate (length.trans valid.bufLength) ?_
      valid.accounted valid.position, ?_, ?_⟩
    · rw [length]
      exact Nat.zero_lt_of_lt valid.ptrInside
    · rw [encodeFrame_view, frame, Framer.feed_of_full bitrate active valid.frameLength_pos
        (by rw [total, filled, frameLength]), length_copied room]
      rfl
    · exact encodeFrame_dumped (stored l) bitrate
  · have below : l.impl.bufPtr + floatsIn l < l.impl.buf.length :=
      Nat.lt_of_le_of_ne (floatsIn_fits valid) fun h => full (h.trans length.symm)
    have whole : l.impl.nChannels ∣ l.impl.bufPtr + floatsIn l :=
      Nat.dvd_add valid.ptrWhole (floatsIn_whole valid)
    have view : (stored l).view = { l.impl.view with
        pending := (stored l).view.pending
        taken := l.impl.taken + floatsIn l / l.impl.nChannels } := rfl
    rw [round_feed_of_part full]
    refine ⟨⟨length.trans valid.bufLength, length ▸ below, whole, valid.accounted,
      valid.position⟩, ?_, rfl⟩
    rw [Framer.feed_of_part bitrate active (by rw [total, frameLength]; exact below), view,
      stored_pending valid room, length_copied room]
    rfl

end Round

/-- The loop of `feed`: what the framer has been given and what is still to come make up
the whole input, and a round with samples left takes at least one. -/
structure Feeding (bitrate : Nat) (e : EncoderImpl c) (xs : List FloatBits) (l : Loop c) :
    Prop where
  valid : l.impl.Valid
  active : l.impl.done = false
  format : l.impl.format = e.format
  room : l.nSamples * l.impl.nChannels ≤ l.pcm.length
  view : l.impl.view.feed bitrate (l.pcm.take (l.nSamples * l.impl.nChannels)) =
    e.view.feed bitrate xs
  dumped : l.impl.mkvWriter.dumped = e.mkvWriter.dumped

theorem Feeding.next {bitrate : Nat} {e : EncoderImpl c} {xs : List FloatBits} {l : Loop c}
    (h : Feeding bitrate e xs l) :
    Feeding bitrate e xs (round bitrate false l) ∧
      (round bitrate false l).nSamples ≤ l.nSamples ∧
      (0 < l.nSamples → (round bitrate false l).nSamples < l.nSamples) := by
  obtain ⟨valid, view, dumped⟩ := round_view h.valid h.active h.room
  obtain ⟨pcm, nSamples⟩ := round_feed_rest
  obtain ⟨k, whole⟩ := floatsIn_whole h.valid
  have channels := h.valid.channels_pos
  have count : floatsIn l / l.impl.nChannels = k := by
    rw [whole, Nat.mul_div_cancel_left _ channels]
  have atMost : k * l.impl.nChannels ≤ l.nSamples * l.impl.nChannels := by
    rw [Nat.mul_comm, ← whole]
    exact Nat.min_le_right _ _
  have format : (round bitrate false l).impl.format = l.impl.format := by
    have same := congrArg Framer.format view
    rwa [Framer.feed_format] at same
  have active : (round bitrate false l).impl.done = l.impl.done := by
    have same := congrArg Framer.done view
    rwa [Framer.feed_done] at same
  have nChannels : (round bitrate false l).impl.nChannels = l.impl.nChannels :=
    congrArg Format.nChannels format
  have left : (round bitrate false l).nSamples * l.impl.nChannels =
      l.nSamples * l.impl.nChannels - floatsIn l := by
    rw [nSamples, count, Nat.sub_mul, whole, Nat.mul_comm k]
  have used : floatsIn l + (l.nSamples * l.impl.nChannels - floatsIn l) =
      l.nSamples * l.impl.nChannels :=
    Nat.add_sub_cancel' (Nat.min_le_right _ _)
  refine ⟨⟨valid, active.trans h.active, format.trans h.format, ?_, ?_, dumped.trans h.dumped⟩,
    ?_, ?_⟩
  · have room := h.room
    rw [nChannels, left, pcm, List.length_drop]
    omega
  · have copied := length_copied h.room
    rw [nChannels, left, pcm, view, ← Framer.feed_append bitrate _ h.valid.frameLength_pos
      (copied.symm ▸ floatsIn_whole h.valid), ← List.take_add, used]
    exact h.view
  · rw [nSamples]
    exact Nat.sub_le _ _
  · intro some_left
    have inside := h.valid.ptrInside
    have positive : 0 < floatsIn l := by
      have := Nat.mul_pos some_left channels
      simp only [floatsIn]
      omega
    have progress : 0 < k := by
      rcases Nat.eq_zero_or_pos k with rfl | progress
      · omega
      · exact progress
    omega

theorem Feeding.rounds {bitrate : Nat} {e : EncoderImpl c} {xs : List FloatBits} {l : Loop c}
    (start : Feeding bitrate e xs l) :
    (rounds bitrate false l).Ends
      (fun l => Feeding bitrate e xs l ∧ decide (0 < l.nSamples) = false) (fun _ _ => False) := by
  apply Imperative.doWhile_ends _ fun l => l.nSamples
  · intro l _ go
    simpa using go
  · intro l h go
    exact ⟨h.next.1, h.next.2.2 (by simpa using go)⟩
  · exact ⟨start.next.1, start.next.2.1⟩

/-- What a call of `encode` leaves behind: the framer's next state, and all that the muxer
has written so far passed on. A finished encoder is not touched. -/
structure Encoded (e : EncoderImpl c) (next : Framer c) (e' : EncoderImpl c) (out : Bytes) :
    Prop where
  valid : e'.Valid
  view : e'.view = next
  dumped : e'.mkvWriter.dumped = e.mkvWriter.dumped ++ out
  drained : e.done = false → e'.mkvWriter.buf = []
  idle : e.done = true → e' = e

theorem encoded_of_done {e : EncoderImpl c} (valid : e.Valid) (closed : e.done = true)
    {next : Framer c} (same : next = e.view) : Encoded e next e [] :=
  ⟨valid, same.symm, (List.append_nil _).symm, fun active => by simp [active] at closed,
    fun _ => rfl⟩

/-- Draining the writer is the last step of a call and invisible to the framer. -/
theorem encoded_of_dump {e m : EncoderImpl c} {next : Framer c} (active : e.done = false)
    (valid : m.Valid) (view : m.view = next)
    (dumped : m.mkvWriter.dumped = e.mkvWriter.dumped) :
    Encoded e next m.dump.1 m.dump.2 where
  valid := ⟨valid.bufLength, valid.ptrInside, valid.ptrWhole,
    (List.append_nil _).trans valid.accounted, valid.position⟩
  view := view
  dumped := by rw [← dumped]; rfl
  drained _ := rfl
  idle closed := by simp [active] at closed

theorem feed_spec {e : EncoderImpl c} (valid : e.Valid) (bitrate : Nat) {pcm : List FloatBits}
    {nSamples : Nat} (room : nSamples * e.nChannels ≤ pcm.length) :
    ∃ e' out, e.feed pcm nSamples bitrate = some (e', out) ∧
      Encoded e (e.view.feed bitrate (pcm.take (nSamples * e.nChannels))) e' out := by
  by_cases closed : e.done = true
  · exact ⟨e, [], by simp [feed, encode, closed],
      encoded_of_done valid closed (Framer.feed_of_done bitrate closed _)⟩
  · have active : e.done = false := by simpa using closed
    have start : Feeding bitrate e (pcm.take (nSamples * e.nChannels)) ⟨e, pcm, nSamples⟩ :=
      ⟨valid, active, rfl, room, rfl, rfl⟩
    obtain ⟨l, result, final, stop⟩ := start.rounds.result
    have finished : l.nSamples = 0 := by simpa using stop
    have view : l.impl.view = e.view.feed bitrate (pcm.take (nSamples * e.nChannels)) := by
      rw [← final.view, finished, Nat.zero_mul, List.take_zero,
        Framer.feed_nil bitrate final.valid.pending_lt]
    exact ⟨_, _, by simp [feed, encode, active, result],
      encoded_of_dump active final.valid view final.dumped⟩

theorem close_view (e : EncoderImpl c) :
    e.close.view = { e.view with done := true, sink := e.sink.close } := rfl

theorem close_dumped (e : EncoderImpl c) :
    e.close.mkvWriter.dumped = e.mkvWriter.dumped := by
  simp [close, BufferMkvWriter.writeAll_eq]

theorem close_valid {e : EncoderImpl c} (valid : e.Valid) : e.close.Valid where
  bufLength := valid.bufLength
  ptrInside := valid.ptrInside
  ptrWhole := valid.ptrWhole
  accounted := by
    simp [close, BufferMkvWriter.writeAll_eq, ← List.append_assoc, valid.accounted, written]
  position := by
    simp [close, BufferMkvWriter.writeAll_eq, valid.position, written]

def padded (e : EncoderImpl c) : EncoderImpl c :=
  { e with
    buf := e.buf.take e.bufPtr ++ List.replicate (e.buf.length - e.bufPtr) 0
    bufPtr := e.buf.length }

theorem length_padded {e : EncoderImpl c} (valid : e.Valid) :
    (padded e).buf.length = e.buf.length := by
  have inside := valid.ptrInside
  simp only [padded, List.length_append, List.length_take, List.length_replicate]
  omega

theorem padded_view {e : EncoderImpl c} (valid : e.Valid) (active : e.done = false)
    (bitrate : Nat) :
    ((padded e).encodeFrame bitrate).close.view = e.view.finalize bitrate := by
  have frameLength : e.view.format.frameLength = e.buf.length := valid.bufLength.symm
  rw [close_view, encodeFrame_view, encodeFrame_sink,
    Framer.finalize_of_active bitrate active, frameLength, valid.length_pending]
  rfl

/-- The last round: its input is copied into the buffer and then overwritten. -/
theorem round_flush_of_short {bitrate : Nat} {l : Loop c} (valid : l.impl.Valid)
    (room : l.nSamples * l.impl.nChannels ≤ l.pcm.length)
    (short : l.nSamples ≤ l.impl.frameSize) :
    round bitrate true l = ⟨(padded l.impl).encodeFrame bitrate, l.pcm, 0⟩ := by
  have inside := valid.ptrInside
  have length := length_stored valid room
  have kept : (stored l).buf.take l.impl.bufPtr = l.impl.buf.take l.impl.bufPtr := by
    simp only [stored, Memory.overwrite, List.append_assoc]
    rw [List.take_append_of_le_length (by rw [List.length_take]; omega), List.take_take,
      Nat.min_self]
  have filled : ({ l.impl with
      buf := (stored l).buf.take l.impl.bufPtr ++
        List.replicate ((stored l).buf.length - l.impl.bufPtr) 0
      bufPtr := (stored l).buf.length } : EncoderImpl c) = padded l.impl := by
    rw [kept, length, padded]
  have full : (padded l.impl).bufPtr = (padded l.impl).buf.length := (length_padded valid).symm
  have at_end : decide (l.nSamples ≤ l.impl.frameSize) = true := decide_eq_true short
  rw [← filled] at full ⊢
  simp only [round, at_end, Bool.true_and, if_true]
  exact if_pos full

theorem round_finalize {e : EncoderImpl c} (valid : e.Valid) (bitrate : Nat) :
    round bitrate true ⟨e, [], 0⟩ = ⟨(padded e).encodeFrame bitrate, [], 0⟩ :=
  round_flush_of_short valid (Nat.le_of_eq (Nat.zero_mul _)) (Nat.zero_le _)

theorem rounds_finalize {e : EncoderImpl c} (valid : e.Valid) (bitrate : Nat) :
    rounds bitrate true ⟨e, [], 0⟩ = .done ⟨(padded e).encodeFrame bitrate, [], 0⟩ := by
  simp only [rounds, Imperative.doWhile, round_finalize valid, Imperative.Outcome.done_bind]
  rfl

theorem finalize_spec {e : EncoderImpl c} (valid : e.Valid) (bitrate : Nat) :
    ∃ e' out, e.finalize bitrate = some (e', out) ∧
      Encoded e (e.view.finalize bitrate) e' out := by
  by_cases closed : e.done = true
  · exact ⟨e, [], by simp [finalize, encode, closed],
      encoded_of_done valid closed (by simp [Framer.finalize, view, closed])⟩
  · have active : e.done = false := by simpa using closed
    have last : ((padded e).encodeFrame bitrate).Valid :=
      encodeFrame_valid bitrate ((length_padded valid).trans valid.bufLength)
        (by rw [length_padded valid]; exact Nat.zero_lt_of_lt valid.ptrInside)
        valid.accounted valid.position
    have dumped : ((padded e).encodeFrame bitrate).close.mkvWriter.dumped = e.mkvWriter.dumped :=
      (close_dumped _).trans (encodeFrame_dumped (padded e) bitrate)
    exact ⟨_, _, by simp [finalize, encode, active, rounds_finalize valid],
      encoded_of_dump active (close_valid last) (padded_view valid active bitrate) dumped⟩

end EncoderImpl

end HttpAudioServer

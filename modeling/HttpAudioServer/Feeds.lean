import HttpAudioServer.Framer
import HttpAudioServer.Library.Run

/-! Runs of an encoder of its own: any calls of `feed` and `finalize`, with blocks of any
sizes. The framer takes the same steps, and for it the blocks do not matter. -/
namespace HttpAudioServer

/-- What the pointer and the count passed to `feed` stand for. -/
structure Pcm (nChannels : Nat) where
  floats : List FloatBits
  nSamples : Nat
  length : floats.length = nSamples * nChannels

namespace Pcm

variable {nChannels : Nat}

def input (blocks : List (Pcm nChannels)) : List FloatBits := blocks.flatMap Pcm.floats

def total (blocks : List (Pcm nChannels)) : Nat := (blocks.map Pcm.nSamples).sum

theorem length_input (blocks : List (Pcm nChannels)) :
    (input blocks).length = total blocks * nChannels := by
  induction blocks with
  | nil => simp [input, total]
  | cons b blocks ih =>
    simp only [input, total, List.flatMap_cons, List.length_append, List.map_cons,
      List.sum_cons] at ih ⊢
    rw [ih, b.length, Nat.add_mul]

end Pcm

inductive EncoderOp (nChannels : Nat) where
  | feed (block : Pcm nChannels) (bitrate : Nat)
  | finalize (bitrate : Nat)

variable {c : Codec} {nChannels : Nat}

def Framer.apply (f : Framer c) : EncoderOp nChannels → Framer c
  | .feed block bitrate => f.feed bitrate block.floats
  | .finalize bitrate => f.finalize bitrate

@[simp] theorem Framer.apply_format (f : Framer c) (op : EncoderOp nChannels) :
    (f.apply op).format = f.format := by
  cases op with
  | feed block bitrate => exact Framer.feed_format bitrate f block.floats
  | finalize bitrate => exact Framer.finalize_format bitrate f

namespace EncoderImpl

def step (e : EncoderImpl c) : EncoderOp nChannels → Option (EncoderImpl c × Bytes)
  | .feed block bitrate => e.feed block.floats block.nSamples bitrate
  | .finalize bitrate => e.finalize bitrate

abbrev run : EncoderImpl c → List (EncoderOp nChannels) → Option (EncoderImpl c × List Bytes) :=
  Run.run step

theorem step_spec {e : EncoderImpl c} (valid : e.Valid) (channels : e.nChannels = nChannels)
    (op : EncoderOp nChannels) :
    ∃ e' out, e.step op = some (e', out) ∧ Encoded e (e.view.apply op) e' out := by
  cases op with
  | feed block bitrate =>
    have whole : block.nSamples * e.nChannels = block.floats.length := by
      rw [channels, block.length]
    have fed := feed_spec valid bitrate (Nat.le_of_eq whole)
    rwa [whole, List.take_length] at fed
  | finalize bitrate => exact finalize_spec valid bitrate

/-- The encoder takes the steps of the framer, and its calls return. -/
theorem run_spec {e : EncoderImpl c} (valid : e.Valid) (channels : e.nChannels = nChannels)
    (ops : List (EncoderOp nChannels)) :
    ∃ e' outs, e.run ops = some (e', outs) ∧ e'.Valid ∧ e'.format = e.format ∧
      e'.view = ops.foldl Framer.apply e.view := by
  induction ops generalizing e with
  | nil => exact ⟨e, [], rfl, valid, rfl, rfl⟩
  | cons op ops ih =>
    obtain ⟨next, out, stepped, encoded⟩ := step_spec valid channels op
    have format : next.format = e.format := by
      have same := congrArg Framer.format encoded.view
      rwa [Framer.apply_format] at same
    obtain ⟨e', outs, ran, valid', format', view⟩ :=
      ih encoded.valid ((congrArg Format.nChannels format).trans channels)
    refine ⟨e', out :: outs, (Run.run_cons stepped ops).trans ?_, valid', format'.trans format, ?_⟩
    · exact congrArg (Option.map _) ran
    · rw [view, encoded.view, List.foldl_cons]

theorem run_of_done {e : EncoderImpl c} (closed : e.done = true)
    (ops : List (EncoderOp nChannels)) : e.run ops = some (e, ops.map fun _ => []) := by
  induction ops with
  | nil => rfl
  | cons op ops ih =>
    have idle : e.step op = some (e, []) := by
      cases op <;> simp [step, feed, finalize, encode, closed]
    exact (Run.run_cons idle ops).trans (congrArg (Option.map _) ih)

end EncoderImpl

/-- Up to what is pending the input has been cut into frames and handed over. -/
structure Framer.Cuts (input : List FloatBits) (f : Framer c) : Prop where
  active : f.done = false
  handed : frames f.sink.calls = Blocks.blocks f.format.frameLength input
  pending : f.pending = Blocks.rest f.format.frameLength input

theorem Framer.Cuts.feed {input : List FloatBits} {f : Framer c} (cuts : f.Cuts input)
    (positive : 0 < f.format.frameLength) (bitrate : Nat) (xs : List FloatBits) :
    (f.feed bitrate xs).Cuts (input ++ xs) where
  active := by rw [Framer.feed_done, cuts.active]
  handed := by
    rw [Framer.frames_feed bitrate cuts.active, Framer.feed_format, cuts.handed, cuts.pending,
      ← Blocks.blocks_append positive]
  pending := by
    rw [Framer.feed_format, Blocks.rest_append positive, ← cuts.pending]
    simp [Framer.feed, cuts.active]

def feedOps (feeds : List (Pcm nChannels × Nat)) : List (EncoderOp nChannels) :=
  feeds.map fun (block, bitrate) => .feed block bitrate

/-- The frames do not depend on the bitrates. -/
theorem Framer.Cuts.feeds {f : Framer c} (cuts : f.Cuts []) (positive : 0 < f.format.frameLength)
    (feeds : List (Pcm nChannels × Nat)) :
    ((feedOps feeds).foldl Framer.apply f).format = f.format ∧
      ((feedOps feeds).foldl Framer.apply f).Cuts (Pcm.input (feeds.map Prod.fst)) := by
  induction feeds using List.reverseRecOn with
  | nil => exact ⟨rfl, cuts⟩
  | append_singleton feeds p ih =>
    obtain ⟨format, earlier⟩ := ih
    have later := earlier.feed (format ▸ positive) p.2 p.1.floats
    have split : (feedOps (feeds ++ [p])).foldl Framer.apply f =
        ((feedOps feeds).foldl Framer.apply f).feed p.2 p.1.floats := by
      simp [feedOps, Framer.apply]
    have input : Pcm.input ((feeds ++ [p]).map Prod.fst) =
        Pcm.input (feeds.map Prod.fst) ++ p.1.floats := by
      simp [Pcm.input]
    rw [split, input]
    exact ⟨(Framer.feed_format _ _ _).trans format, later⟩

namespace Pcm

/-- The samples of frame `k`, for frames of `size` samples. -/
def slice (blocks : List (Pcm nChannels)) (size k : Nat) : List FloatBits :=
  ((input blocks).drop (k * (size * nChannels))).take (size * nChannels)

/-- The samples that the whole frames leave over. -/
def leftover (blocks : List (Pcm nChannels)) (size : Nat) : List FloatBits :=
  (input blocks).drop (total blocks / size * (size * nChannels))

theorem blocks_input (channels : 0 < nChannels) (blocks : List (Pcm nChannels)) (size : Nat) :
    Blocks.blocks (size * nChannels) (input blocks) =
      (List.range (total blocks / size)).map (slice blocks size) := by
  simp only [Blocks.blocks, length_input, Nat.mul_div_mul_right _ _ channels]
  rfl

theorem rest_input (channels : 0 < nChannels) (blocks : List (Pcm nChannels)) (size : Nat) :
    Blocks.rest (size * nChannels) (input blocks) = leftover blocks size := by
  simp only [Blocks.rest, length_input, Nat.mul_div_mul_right _ _ channels]
  rfl

theorem length_leftover (channels : 0 < nChannels) (blocks : List (Pcm nChannels)) (size : Nat) :
    (leftover blocks size).length = total blocks % size * nChannels := by
  rw [← rest_input channels, Blocks.length_rest, length_input, Nat.mul_mod_mul_right]

end Pcm

namespace EncoderImpl

theorem run_feeds_finalize (c : Codec) (rate : UInt64) (feeds : List (Pcm nChannels × Nat))
    (bitrate : Nat) (fast : 25 ≤ rate.toNat) (channels : 1 ≤ nChannels)
    {blocks : List (Pcm nChannels)} (fed : feeds.map Prod.fst = blocks) :
    ∃ e outs e' out, (create c rate nChannels).run (feedOps feeds) = some (e, outs) ∧
      frames e.calls = (List.range (Pcm.total blocks / (rate.toNat / 25))).map
        (Pcm.slice blocks (rate.toNat / 25)) ∧
      e.bufPtr = Pcm.total blocks % (rate.toNat / 25) * nChannels ∧
      e.buf.take e.bufPtr = Pcm.leftover blocks (rate.toNat / 25) ∧
      e.finalize bitrate = some (e', out) ∧ e'.done = true ∧
      frames e'.calls = frames e.calls ++ [Pcm.leftover blocks (rate.toNat / 25) ++
        List.replicate ((rate.toNat / 25 - Pcm.total blocks % (rate.toNat / 25)) * nChannels) 0] := by
  have start := create_valid (c := c) rate nChannels fast channels
  have fresh : (create c rate nChannels).view.Cuts [] :=
    ⟨rfl, (Blocks.blocks_nil start.frameLength_pos).symm, (Blocks.rest_nil start.frameLength_pos).symm⟩
  have same : (create c rate nChannels).nChannels = nChannels := rfl
  obtain ⟨e, outs, ran, valid, _, view⟩ := run_spec start same (feedOps feeds)
  obtain ⟨format, cuts⟩ := fresh.feeds start.frameLength_pos feeds
  rw [← view] at format cuts
  obtain ⟨e', out, finalized, encoded⟩ := finalize_spec valid bitrate
  have length : e.view.format.frameLength = rate.toNat / 25 * nChannels :=
    congrArg Format.frameLength format
  rw [fed] at cuts
  have handed : frames e.calls = (List.range (Pcm.total blocks / (rate.toNat / 25))).map
      (Pcm.slice blocks (rate.toNat / 25)) := by
    rw [← Pcm.blocks_input channels, ← length]
    exact cuts.handed
  have pending : e.view.pending = Pcm.leftover blocks (rate.toNat / 25) := by
    rw [cuts.pending, length, Pcm.rest_input channels]
  have ptr : e.bufPtr = Pcm.total blocks % (rate.toNat / 25) * nChannels := by
    rw [← valid.length_pending, pending, Pcm.length_leftover channels]
  have last := Framer.frames_finalize bitrate cuts.active
  rw [← encoded.view, length, pending, Pcm.length_leftover channels, ← Nat.sub_mul] at last
  have done : e'.done = true := by
    have closed := congrArg Framer.done encoded.view
    rwa [Framer.finalize_done] at closed
  exact ⟨e, outs, e', out, ran, handed, ptr, pending, finalized, done, last⟩

/-- However the PCM is fed, the encoder hands over the whole frames of it and keeps the
rest; `finalize` hands over the rest with zeros, and then the encoder is at rest. -/
theorem feeds_frame_input (c : Codec) (rate : UInt64) (nChannels bitrate : Nat)
    (blocks : List (Pcm nChannels)) (fast : 25 ≤ rate.toNat) (channels : 1 ≤ nChannels) :
    ∃ e outs, (create c rate nChannels).run (blocks.map (EncoderOp.feed · bitrate)) =
        some (e, outs) ∧
      frames e.calls = (List.range (Pcm.total blocks / (rate.toNat / 25))).map
        (Pcm.slice blocks (rate.toNat / 25)) ∧
      e.bufPtr = Pcm.total blocks % (rate.toNat / 25) * nChannels ∧
      e.buf.take e.bufPtr = Pcm.leftover blocks (rate.toNat / 25) ∧
      ∃ e' out, e.finalize bitrate = some (e', out) ∧
        frames e'.calls = frames e.calls ++ [Pcm.leftover blocks (rate.toNat / 25) ++
          List.replicate ((rate.toNat / 25 - Pcm.total blocks % (rate.toNat / 25)) * nChannels) 0] ∧
        ∀ later : List (EncoderOp nChannels), e'.run later = some (e', later.map fun _ => []) := by
  have ops : feedOps (blocks.map (·, bitrate)) = blocks.map (EncoderOp.feed · bitrate) := by
    rw [feedOps, List.map_map]
    rfl
  have fed : (blocks.map (·, bitrate)).map Prod.fst = blocks := by
    rw [List.map_map]
    exact List.map_id blocks
  obtain ⟨e, outs, e', out, ran, handed, ptr, pending, finalized, done, last⟩ :=
    run_feeds_finalize c rate (blocks.map (·, bitrate)) bitrate fast channels fed
  rw [ops] at ran
  exact ⟨e, outs, ran, handed, ptr, pending, e', out, finalized, last, run_of_done done⟩

def smallBlocks : List (Pcm 2) := [⟨[1, 2], 1, rfl⟩, ⟨[], 0, rfl⟩, ⟨[3, 4, 5, 6], 2, rfl⟩]

def frameBlocks : List (Pcm 2) :=
  [⟨[1, 2], 1, rfl⟩, ⟨[], 0, rfl⟩, ⟨List.replicate 3840 3, 1920, List.length_replicate⟩]

theorem feeds_frame_input_stereo :
    ∃ e outs, (create Codec.plain 48000 2).run (frameBlocks.map (EncoderOp.feed · 196000)) =
        some (e, outs) ∧
      frames e.calls = [[1, 2] ++ List.replicate 3838 3] ∧ e.bufPtr = 2 ∧ e.buf.take 2 = [3, 3] ∧
      ∃ e' out, e.finalize 196000 = some (e', out) ∧
        frames e'.calls = frames e.calls ++ [[3, 3] ++ List.replicate 3838 0] := by
  obtain ⟨e, outs, ran, handed, ptr, pending, e', out, finalized, last, _⟩ :=
    feeds_frame_input Codec.plain 48000 2 196000 frameBlocks (by decide) (by decide)
  have one : (List.range (Pcm.total frameBlocks / ((48000 : UInt64).toNat / 25))).map
      (Pcm.slice frameBlocks ((48000 : UInt64).toNat / 25)) = [[1, 2] ++ List.replicate 3838 3] := by
    decide +kernel
  have rest : Pcm.leftover frameBlocks ((48000 : UInt64).toNat / 25) = [3, 3] := by decide +kernel
  have two : e.bufPtr = 2 := ptr
  rw [two, rest] at pending
  rw [rest] at last
  exact ⟨e, outs, ran, handed.trans one, two, pending, e', out, finalized, last⟩

/-- `finalize` flushes one frame in any case: the padding is what a frame has room for after
the rest, and it is a whole frame of its own when nothing is left over. -/
theorem finalize_pads (c : Codec) (rate : UInt64) (nChannels bitrate : Nat)
    (feeds : List (Pcm nChannels × Nat)) (fast : 25 ≤ rate.toNat) (channels : 1 ≤ nChannels) :
    ∃ e outs, (create c rate nChannels).run (feedOps feeds ++ [.finalize bitrate]) =
        some (e, outs) ∧
      (frames e.calls).length = Pcm.total (feeds.map Prod.fst) / (rate.toNat / 25) + 1 ∧
      (frames e.calls).flatten = Pcm.input (feeds.map Prod.fst) ++ List.replicate
        ((rate.toNat / 25 - Pcm.total (feeds.map Prod.fst) % (rate.toNat / 25)) * nChannels) 0 ∧
      ((frames e.calls).length =
          (Pcm.total (feeds.map Prod.fst) + (rate.toNat / 25 - 1)) / (rate.toNat / 25) ↔
        Pcm.total (feeds.map Prod.fst) % (rate.toNat / 25) ≠ 0) := by
  obtain ⟨e, outs, e', out, ran, handed, _, _, finalized, _, last⟩ :=
    run_feeds_finalize c rate feeds bitrate fast channels rfl
  have positive : 0 < rate.toNat / 25 := Nat.div_pos fast (by decide)
  have count : (frames e'.calls).length =
      Pcm.total (feeds.map Prod.fst) / (rate.toNat / 25) + 1 := by
    rw [last, handed, List.length_append, List.length_map, List.length_range]
    rfl
  have whole : (frames e.calls).flatten ++ Pcm.leftover (feeds.map Prod.fst) (rate.toNat / 25) =
      Pcm.input (feeds.map Prod.fst) := by
    rw [handed, ← Pcm.blocks_input channels, ← Pcm.rest_input channels]
    exact Blocks.flatten_blocks_append_rest (Nat.mul_pos positive channels) _
  refine ⟨e', outs ++ [out], ?_, count, ?_, ?_⟩
  · exact Run.run_append_eq_some.mpr
      ⟨e, outs, [out], ran, Run.run_cons_eq_some.mpr ⟨e', out, [], finalized, rfl, rfl⟩, rfl⟩
  · rw [last, List.flatten_append, List.flatten_singleton, ← List.append_assoc, whole]
  · rw [count]
    exact Blocks.succ_div_eq_ceil positive

theorem finalize_pads_small_blocks :
    ∃ e outs, (create Codec.plain 48000 2).run
        (feedOps (smallBlocks.map (·, 196000)) ++ [.finalize 64000]) = some (e, outs) ∧
      (frames e.calls).length = 1 ∧
      (frames e.calls).flatten = [1, 2, 3, 4, 5, 6] ++ List.replicate 3834 0 := by
  obtain ⟨e, outs, ran, count, whole, _⟩ := finalize_pads Codec.plain 48000 2 64000
    (smallBlocks.map (·, 196000)) (by decide) (by decide)
  exact ⟨e, outs, ran, count, whole⟩

def oneFrame : Pcm 2 := ⟨List.replicate 3840 1, 1920, List.length_replicate⟩

theorem whole_frame_pads_another :
    ∃ e outs, (create Codec.plain 48000 2).run (feedOps [(oneFrame, 196000)] ++ [.finalize 196000]) =
        some (e, outs) ∧
      (frames e.calls).length = 2 ∧ (Pcm.total [oneFrame] + (1920 - 1)) / 1920 = 1 := by
  obtain ⟨e, outs, e', out, ran, handed, _, _, finalized, _, last⟩ :=
    run_feeds_finalize Codec.plain 48000 [(oneFrame, 196000)] 196000 (by decide) (by decide) rfl
  refine ⟨e', outs ++ [out], ?_, ?_, rfl⟩
  · exact Run.run_append_eq_some.mpr
      ⟨e, outs, [out], ran, Run.run_cons_eq_some.mpr ⟨e', out, [], finalized, rfl, rfl⟩, rfl⟩
  · rw [last, handed, List.length_append, List.length_map, List.length_range]
    rfl

end EncoderImpl

end HttpAudioServer

import HttpAudioServer.Feeds

/-! Flushing an encoder with samples. The last round of `encode` fills the buffer with zeros
from where it has just copied its input to, so the samples of that round are gone. -/
namespace HttpAudioServer

variable {c : Codec} {nChannels : Nat}

namespace Framer

theorem length_pending_feed (bitrate : Nat) {f : Framer c} (active : f.done = false)
    (xs : List FloatBits) :
    (f.feed bitrate xs).pending.length =
      (f.pending.length + xs.length) % f.format.frameLength := by
  simp [feed, active, Blocks.length_rest]

/-- What comes before the padding of the last frame may be missed if it is silence. -/
theorem sink_finalize_feed (bitrate : Nat) {f : Framer c} {lost : List FloatBits}
    (active : f.done = false)
    (short : f.pending.length + lost.length < f.format.frameLength) (silent : ∀ x ∈ lost, x = 0) :
    ((f.feed bitrate lost).finalize bitrate).sink = (f.finalize bitrate).sink := by
  have part : (f.pending ++ lost).length < f.format.frameLength := by rwa [List.length_append]
  have zeros : lost = List.replicate lost.length 0 := List.eq_replicate_of_mem silent
  have filled : f.pending ++ lost ++
      List.replicate (f.format.frameLength - (f.pending ++ lost).length) 0 =
      f.pending ++ List.replicate (f.format.frameLength - f.pending.length) 0 := by
    rw [List.append_assoc, List.length_append]
    conv_lhs => rw [zeros]
    rw [List.replicate_append_replicate, List.length_replicate]
    congr 2
    omega
  have fed : (f.feed bitrate lost).done = false := by rw [feed_done, active]
  rw [finalize_of_active bitrate fed, finalize_of_active bitrate active,
    feed_of_part bitrate active part]
  exact congrArg (fun frame => (f.sink.frame f.format bitrate frame).close) filled

/-- Giving up samples before the end shows, unless they are silence in the padded frame. -/
theorem frames_finalize_feed_iff (bitrate : Nat) {f : Framer c} (active : f.done = false)
    (partially : f.pending.length < f.format.frameLength) (lost : List FloatBits) :
    frames (f.finalize bitrate).sink.calls =
        frames ((f.feed bitrate lost).finalize bitrate).sink.calls ↔
      f.pending.length + lost.length < f.format.frameLength ∧ ∀ x ∈ lost, x = 0 := by
  constructor
  · intro same
    rw [frames_finalize bitrate active, frames_finalize bitrate (by rw [feed_done, active]),
      frames_feed bitrate active, feed_format, List.append_assoc,
      List.append_cancel_left_eq] at same
    have count := congrArg List.length same
    rw [List.length_append, Blocks.length_blocks, List.length_append] at count
    have none : (f.pending.length + lost.length) / f.format.frameLength = 0 := by
      simpa using count.symm
    have short : f.pending.length + lost.length < f.format.frameLength :=
      (Nat.div_eq_zero_iff_lt (Nat.zero_lt_of_lt partially)).mp none
    have part : (f.pending ++ lost).length < f.format.frameLength := by rwa [List.length_append]
    rw [Blocks.blocks_of_lt part, feed_of_part bitrate active part, List.nil_append,
      List.singleton_inj, List.append_assoc, List.append_cancel_left_eq] at same
    refine ⟨short, fun x member => ?_⟩
    exact List.eq_of_mem_replicate (same ▸ List.mem_append_left _ member)
  · rintro ⟨short, silent⟩
    rw [sink_finalize_feed bitrate active short silent]

end Framer

namespace EncoderImpl

section Flushing

variable {bitrate : Nat} {e : EncoderImpl c} {xs : List FloatBits} {l : Loop c}

theorem round_flush_of_long (long : l.impl.frameSize < l.nSamples) :
    round bitrate true l = round bitrate false l := by
  have open_end : decide (l.nSamples ≤ l.impl.frameSize) = false := decide_eq_false (Nat.not_le.mpr long)
  simp only [round, open_end, Bool.and_false]

end Flushing

/-- The loop of a flush before its last round: as without the flush, and after the first
round the buffer is empty and something is left. -/
structure Flushing (bitrate : Nat) (e : EncoderImpl c) (pcm : List FloatBits) (nSamples : Nat)
    (l : Loop c) : Prop where
  feeding : Feeding bitrate e pcm l
  exact : l.pcm.length = l.nSamples * l.impl.nChannels
  suffix : l.pcm <:+ pcm
  fresh : l = ⟨e, pcm, nSamples⟩ ∨
    e.frameSize < nSamples ∧ l.impl.bufPtr = 0 ∧ 0 < l.nSamples

theorem Flushing.next {bitrate : Nat} {e : EncoderImpl c} {pcm : List FloatBits} {nSamples : Nat}
    {l : Loop c} (h : Flushing bitrate e pcm nSamples l) (long : l.impl.frameSize < l.nSamples) :
    Flushing bitrate e pcm nSamples (round bitrate true l) ∧
      0 < (round bitrate true l).nSamples ∧
      (round bitrate true l).nSamples < l.nSamples := by
  have valid := h.feeding.valid
  have channels := valid.channels_pos
  have some_left : 0 < l.nSamples := Nat.zero_lt_of_lt long
  obtain ⟨next, _, fewer⟩ := h.feeding.next
  obtain ⟨pcm_left, samples_left⟩ : (round bitrate false l).pcm = l.pcm.drop (floatsIn l) ∧
      (round bitrate false l).nSamples = l.nSamples - floatsIn l / l.impl.nChannels :=
    round_feed_rest
  have wider : l.impl.buf.length < l.nSamples * l.impl.nChannels := by
    rw [valid.bufLength]
    exact Nat.mul_lt_mul_of_pos_right long channels
  have fills : floatsIn l = l.impl.buf.length - l.impl.bufPtr :=
    Nat.min_eq_left (Nat.le_trans (Nat.sub_le _ _) (Nat.le_of_lt wider))
  have full : (stored l).bufPtr = (stored l).buf.length := by
    have inside := valid.ptrInside
    rw [length_stored valid h.feeding.room]
    simp only [stored, fills]
    omega
  have restarted : (round bitrate false l).impl.bufPtr = 0 := by
    rw [round_feed_of_full full, encodeFrame_bufPtr]
  obtain ⟨k, whole⟩ := floatsIn_whole valid
  have count : floatsIn l / l.impl.nChannels = k := by
    rw [whole, Nat.mul_div_cancel_left _ channels]
  have atMost : k ≤ l.impl.frameSize := by
    apply Nat.le_of_mul_le_mul_right _ channels
    rw [← valid.bufLength, Nat.mul_comm, ← whole, fills]
    exact Nat.sub_le _ _
  have same : (round bitrate false l).impl.nChannels = l.impl.nChannels :=
    congrArg Format.nChannels (next.format.trans h.feeding.format.symm)
  have long_block : e.frameSize < nSamples := by
    rcases h.fresh with rfl | ⟨longer, _⟩
    · exact long
    · exact longer
  have more : 0 < (round bitrate false l).nSamples := by
    rw [samples_left, count]
    omega
  rw [round_flush_of_long long]
  refine ⟨⟨next, ?_, ?_, .inr ⟨long_block, restarted, more⟩⟩, more, fewer some_left⟩
  · rw [pcm_left, List.length_drop, samples_left, same, count, h.exact, whole, Nat.sub_mul,
      Nat.mul_comm k]
  · rw [pcm_left]
    exact (List.drop_suffix _ _).trans h.suffix

/-- The last round has been: from a state with at most a frame left to come. -/
def Flushed (bitrate : Nat) (e : EncoderImpl c) (pcm : List FloatBits) (nSamples : Nat)
    (l : Loop c) : Prop :=
  ∃ m, Flushing bitrate e pcm nSamples m ∧ m.nSamples ≤ m.impl.frameSize ∧
    l = ⟨(padded m.impl).encodeFrame bitrate, m.pcm, 0⟩

theorem Flushing.round {bitrate : Nat} {e : EncoderImpl c} {pcm : List FloatBits} {nSamples : Nat}
    {l : Loop c} (h : Flushing bitrate e pcm nSamples l) :
    (Flushing bitrate e pcm nSamples (round bitrate true l) ∧
        0 < (EncoderImpl.round bitrate true l).nSamples ∨
      Flushed bitrate e pcm nSamples (EncoderImpl.round bitrate true l)) ∧
    (EncoderImpl.round bitrate true l).nSamples ≤ l.nSamples ∧
    (0 < l.nSamples → (EncoderImpl.round bitrate true l).nSamples < l.nSamples) := by
  by_cases short : l.nSamples ≤ l.impl.frameSize
  · have last : EncoderImpl.round bitrate true l = _ :=
      round_flush_of_short h.feeding.valid h.feeding.room short
    refine ⟨.inr ⟨l, h, short, last⟩, ?_, ?_⟩
    · rw [last]
      exact Nat.zero_le _
    · rw [last]
      exact id
  · obtain ⟨next, more, fewer⟩ := h.next (Nat.not_le.mp short)
    exact ⟨.inl ⟨next, more⟩, Nat.le_of_lt fewer, fun _ => fewer⟩

theorem rounds_flush_ends {bitrate : Nat} {e : EncoderImpl c} {pcm : List FloatBits}
    {nSamples : Nat} (start : Flushing bitrate e pcm nSamples ⟨e, pcm, nSamples⟩) :
    ∃ l, (rounds bitrate true ⟨e, pcm, nSamples⟩).result? = some l ∧
      Flushed bitrate e pcm nSamples l := by
  have ends : (rounds bitrate true ⟨e, pcm, nSamples⟩).Ends
      (fun l => (Flushing bitrate e pcm nSamples l ∧ 0 < l.nSamples ∨
        Flushed bitrate e pcm nSamples l) ∧ decide (0 < l.nSamples) = false)
      (fun _ _ => False) := by
    apply Imperative.doWhile_ends _ fun l => l.nSamples
    · intro l _ go
      simpa using go
    · rintro l (⟨flushing, _⟩ | ⟨m, _, _, rfl⟩) go
      · exact ⟨flushing.round.1, flushing.round.2.2 (by simpa using go)⟩
      · simp at go
    · exact ⟨start.round.1, start.round.2.1⟩
  obtain ⟨l, result, ⟨flushing, more⟩ | flushed, stop⟩ := ends.result
  · simp [more] at stop
  · exact ⟨l, result, flushed⟩

end EncoderImpl

/-- The samples of a block of `n` that are left for the last round of a flush, when the buffer
has `p` samples at the start. -/
def lastSamples (frameSize p n : Nat) : Nat :=
  if n ≤ frameSize then n else if (p + n) % frameSize = 0 then frameSize else (p + n) % frameSize

/-- The last round of a flush has nothing to lose: its samples are silence, and there is room
for them after what the buffer has by then. -/
def KeepsLast (frameSize p : Nat) (block : Pcm nChannels) : Prop :=
  (if block.nSamples ≤ frameSize then p else 0) +
      lastSamples frameSize p block.nSamples < frameSize ∧
    ∀ x ∈ block.floats.drop
      ((block.nSamples - lastSamples frameSize p block.nSamples) * nChannels), x = 0

instance (frameSize p : Nat) (block : Pcm nChannels) : Decidable (KeepsLast frameSize p block) :=
  haveI : Decidable (∀ x ∈ block.floats.drop
      ((block.nSamples - lastSamples frameSize p block.nSamples) * nChannels), x = 0) :=
    List.decidableBAll _ _
  inferInstanceAs (Decidable (_ ∧ _))

theorem eq_lastSamples {frameSize p n left : Nat} (long : frameSize < n) (some_left : 0 < left)
    (short : left ≤ frameSize) (same : left % frameSize = (p + n) % frameSize) :
    left = lastSamples frameSize p n := by
  rw [lastSamples, if_neg (Nat.not_le.mpr long), ← same]
  rcases Nat.lt_or_eq_of_le short with less | rfl
  · rw [Nat.mod_eq_of_lt less, if_neg (Nat.ne_of_gt some_left)]
  · rw [Nat.mod_self, if_pos rfl]

namespace EncoderImpl

theorem Flushing.keeps_iff {bitrate : Nat} {e : EncoderImpl c} {block : Pcm nChannels} {l : Loop c}
    (valid : e.Valid) (active : e.done = false) (channels : e.nChannels = nChannels)
    (h : Flushing bitrate e block.floats block.nSamples l)
    (short : l.nSamples ≤ l.impl.frameSize) :
    l.impl.view.pending.length + l.pcm.length < l.impl.view.format.frameLength ∧
        (∀ x ∈ l.pcm, x = 0) ↔
      KeepsLast e.frameSize (e.bufPtr / nChannels) block := by
  have positive : 0 < nChannels := channels ▸ valid.channels_pos
  have format : l.impl.format = e.format := h.feeding.format
  have frameSize : l.impl.frameSize = e.frameSize := congrArg Format.frameSize format
  have nChannels' : l.impl.nChannels = nChannels :=
    (congrArg Format.nChannels format).trans channels
  have frameLength : l.impl.view.format.frameLength = e.frameSize * nChannels := by
    rw [← channels]
    exact congrArg Format.frameLength format
  have ptr : e.bufPtr / nChannels * nChannels = e.bufPtr :=
    Nat.div_mul_cancel (channels ▸ valid.ptrWhole)
  have exact : l.pcm.length = l.nSamples * nChannels := nChannels' ▸ h.exact
  have count : l.nSamples = lastSamples e.frameSize (e.bufPtr / nChannels) block.nSamples ∧
      l.impl.bufPtr = (if block.nSamples ≤ e.frameSize then e.bufPtr / nChannels else 0) *
        nChannels := by
    rcases h.fresh with rfl | ⟨long, restarted, more⟩
    · have few : block.nSamples ≤ e.frameSize := short
      rw [lastSamples, if_pos few, if_pos few, ptr]
      exact ⟨rfl, rfl⟩
    · rw [if_neg (Nat.not_le.mpr long), restarted, Nat.zero_mul]
      refine ⟨eq_lastSamples long more (frameSize ▸ short) ?_, rfl⟩
      have fed := congrArg (fun f : Framer c => f.pending.length) h.feeding.view
      rw [Framer.length_pending_feed bitrate h.feeding.active,
        Framer.length_pending_feed bitrate active, ← h.exact, List.take_length,
        h.feeding.valid.length_pending, valid.length_pending, restarted, exact, block.length,
        Nat.zero_add, ← ptr, ← Nat.add_mul] at fed
      have frame : e.view.format.frameLength = e.frameSize * nChannels := by
        rw [← channels]
        rfl
      rw [frameLength, frame, Nat.mul_mod_mul_right, Nat.mul_mod_mul_right] at fed
      exact Nat.eq_of_mul_eq_mul_right positive fed
  rw [h.feeding.valid.length_pending, count.2, exact, frameLength, ← Nat.add_mul,
    Nat.mul_lt_mul_right positive, count.1, KeepsLast]
  have rest : l.pcm = block.floats.drop
      ((block.nSamples - lastSamples e.frameSize (e.bufPtr / nChannels) block.nSamples) *
        nChannels) := by
    rw [← count.1, Nat.sub_mul, ← exact, ← block.length]
    exact List.suffix_iff_eq_drop.mp h.suffix
  rw [rest]

section Flush

variable {e : EncoderImpl c} (valid : e.Valid) (active : e.done = false)
  (channels : e.nChannels = nChannels) (block : Pcm nChannels) (bitrate : Nat)

include valid active channels

/-- The two ways to end, from any state that is not finished. -/
theorem flush_or_feed :
    ∃ flushed fed finalized out out' out'',
      e.encode block.floats block.nSamples bitrate true = some (flushed, out) ∧
      e.encode block.floats block.nSamples bitrate false = some (fed, out') ∧
      fed.encode [] 0 bitrate true = some (finalized, out'') ∧
      (frames flushed.calls = frames finalized.calls ↔
        KeepsLast e.frameSize (e.bufPtr / nChannels) block) ∧
      (flushed.calls = finalized.calls ↔
        KeepsLast e.frameSize (e.bufPtr / nChannels) block) := by
  have whole : block.nSamples * e.nChannels = block.floats.length := by
    rw [block.length, channels]
  have start : Flushing bitrate e block.floats block.nSamples ⟨e, block.floats, block.nSamples⟩ :=
    ⟨⟨valid, active, rfl, Nat.le_of_eq whole, by rw [whole, List.take_length], rfl⟩,
      whole.symm, List.suffix_refl _, .inl rfl⟩
  obtain ⟨_, result, l, flushing, short, rfl⟩ := rounds_flush_ends start
  obtain ⟨fed, out', feeds, encoded⟩ := feed_spec valid bitrate (Nat.le_of_eq whole)
  obtain ⟨finalized, out'', finalizes, encoded'⟩ := finalize_spec encoded.valid bitrate
  have iff := flushing.keeps_iff valid active channels short
  have left : l.pcm.take (l.nSamples * l.impl.nChannels) = l.pcm := by
    rw [← flushing.exact, List.take_length]
  have reference : finalized.view = (l.impl.view.feed bitrate l.pcm).finalize bitrate := by
    rw [encoded'.view, encoded.view, whole, List.take_length, ← flushing.feeding.view, left]
  have view := padded_view flushing.feeding.valid flushing.feeding.active bitrate
  have calls : ((padded l.impl).encodeFrame bitrate).close.dump.1.calls =
      (l.impl.view.finalize bitrate).sink.calls :=
    congrArg (fun f : Framer c => f.sink.calls) view
  have calls' : finalized.calls = ((l.impl.view.feed bitrate l.pcm).finalize bitrate).sink.calls :=
    congrArg (fun f : Framer c => f.sink.calls) reference
  have missed := Framer.frames_finalize_feed_iff bitrate flushing.feeding.active
    flushing.feeding.valid.pending_lt l.pcm
  rw [iff, ← calls, ← calls'] at missed
  have flushes : e.encode block.floats block.nSamples bitrate true =
      some (((padded l.impl).encodeFrame bitrate).close.dump.1,
        ((padded l.impl).encodeFrame bitrate).close.dump.2) := by
    simp [encode, active, result]
  refine ⟨_, fed, finalized, _, out', out'', flushes, feeds, finalizes, missed,
    fun equal => missed.mp (congrArg frames equal), fun keeps => ?_⟩
  obtain ⟨room, silent⟩ := iff.mpr keeps
  rw [calls, calls', Framer.sink_finalize_feed bitrate flushing.feeding.active room silent]

end Flush

/-- A flush hands over what a feed and `finalize` hand over when nothing is lost. -/
theorem flush_keeps_iff (c : Codec) (rate : UInt64) (nChannels : Nat)
    (ops : List (EncoderOp nChannels)) (e : EncoderImpl c) (outs : List Bytes)
    (fast : 25 ≤ rate.toNat) (channels : 1 ≤ nChannels)
    (reached : (create c rate nChannels).run ops = some (e, outs)) (active : e.done = false)
    (block : Pcm nChannels) (bitrate : Nat) :
    ∃ flushed fed finalized out out' out'',
      e.encode block.floats block.nSamples bitrate true = some (flushed, out) ∧
      e.encode block.floats block.nSamples bitrate false = some (fed, out') ∧
      fed.encode [] 0 bitrate true = some (finalized, out'') ∧
      (frames flushed.calls = frames finalized.calls ↔
        KeepsLast (rate.toNat / 25) (e.bufPtr / nChannels) block) ∧
      (flushed.calls = finalized.calls ↔
        KeepsLast (rate.toNat / 25) (e.bufPtr / nChannels) block) := by
  have same : (create c rate nChannels).nChannels = nChannels := rfl
  obtain ⟨e', outs', ran, valid, format, _⟩ :=
    run_spec (create_valid (c := c) rate nChannels fast channels) same ops
  cases reached.symm.trans ran
  have frameSize : e.frameSize = rate.toNat / 25 := congrArg Format.frameSize format
  rw [← frameSize]
  exact flush_or_feed valid active (congrArg Format.nChannels format) block bitrate

def oneSample : Pcm 2 := ⟨[5, 6], 1, rfl⟩

/-- Silence after a sample that is in the buffer. -/
theorem flush_keeps_iff_silence :
    ∃ e outs, (create Codec.plain 48000 2).run [.feed oneSample 196000] = some (e, outs) ∧
      e.buf.take e.bufPtr = [5, 6] ∧
      ∃ flushed fed finalized out out' out'',
        e.encode [0, 0] 1 196000 true = some (flushed, out) ∧
        e.encode [0, 0] 1 196000 false = some (fed, out') ∧
        fed.encode [] 0 196000 true = some (finalized, out'') ∧
        flushed.calls = finalized.calls := by
  have evaluated : ((create Codec.plain 48000 2).run [.feed oneSample 196000]).map
      (fun r => (r.1.done, r.1.bufPtr, r.1.buf.take r.1.bufPtr)) = some (false, 2, [5, 6]) := by
    decide +kernel
  obtain ⟨⟨e, outs⟩, ran, same⟩ := Option.map_eq_some_iff.mp evaluated
  obtain ⟨active, ptr, held⟩ : e.done = false ∧ e.bufPtr = 2 ∧ e.buf.take e.bufPtr = [5, 6] := by
    simpa only [Prod.mk.injEq] using same
  obtain ⟨flushed, fed, finalized, out, out', out'', flushes, feeds, finalizes, _, calls⟩ :=
    flush_keeps_iff Codec.plain 48000 2 _ e outs (by decide) (by decide) ran active
      ⟨[0, 0], 1, rfl⟩ 196000
  have keeps : KeepsLast ((48000 : UInt64).toNat / 25) (e.bufPtr / 2) (⟨[0, 0], 1, rfl⟩ : Pcm 2) := by
    rw [ptr]
    decide
  exact ⟨e, outs, ran, held, flushed, fed, finalized, out, out', out'', flushes, feeds, finalizes,
    calls.mpr keeps⟩

theorem flush_loses_sample :
    ∃ flushed fed finalized out out' out'',
      (create Codec.plain 48000 2).encode [1, 1] 1 196000 true = some (flushed, out) ∧
      (create Codec.plain 48000 2).encode [1, 1] 1 196000 false = some (fed, out') ∧
      fed.encode [] 0 196000 true = some (finalized, out'') ∧
      frames flushed.calls ≠ frames finalized.calls := by
  have valid := create_valid (c := Codec.plain) 48000 2 (by decide) (by decide)
  obtain ⟨flushed, fed, finalized, out, out', out'', flushes, feeds, finalizes, handed, _⟩ :=
    flush_or_feed valid rfl rfl (⟨[1, 1], 1, rfl⟩ : Pcm 2) 196000
  have loses : ¬ KeepsLast ((48000 : UInt64).toNat / 25) 0 (⟨[1, 1], 1, rfl⟩ : Pcm 2) := by decide
  exact ⟨flushed, fed, finalized, out, out', out'', flushes, feeds, finalizes,
    fun same => loses (handed.mp same)⟩

end EncoderImpl

end HttpAudioServer

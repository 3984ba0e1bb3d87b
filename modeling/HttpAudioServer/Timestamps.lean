import HttpAudioServer.Feeds

/-! The timestamps that the muxer is given. Each goes with the number of the frame that it is
for, counted among the frames handed to opus, of which some may fail. -/
namespace HttpAudioServer

/-- Each call of `AddFrame`: the number of its frame and its timestamp, after `k` frames. -/
def stampsFrom (k : Nat) : List CodecCall → List (Nat × UInt64)
  | [] => []
  | .opusEncodeFloat _ :: calls => stampsFrom (k + 1) calls
  | .addFrame _ ts _ :: calls => (k - 1, ts) :: stampsFrom k calls
  | .init _ :: calls => stampsFrom k calls
  | .finalize _ :: calls => stampsFrom k calls

abbrev stamps (calls : List CodecCall) : List (Nat × UInt64) := stampsFrom 0 calls

theorem stampsFrom_append (k : Nat) (xs ys : List CodecCall) :
    stampsFrom k (xs ++ ys) = stampsFrom k xs ++ stampsFrom (k + (frames xs).length) ys := by
  induction xs generalizing k with
  | nil => rfl
  | cons x xs ih =>
    cases x with
    | opusEncodeFloat frame =>
      have more : k + 1 + (frames xs).length =
          k + (frames (CodecCall.opusEncodeFloat frame :: xs)).length := by
        rw [Nat.add_assoc, Nat.add_comm 1]
        rfl
      rw [List.cons_append, stampsFrom, ih, more, stampsFrom]
    | addFrame packet ts writes => exact congrArg ((k - 1, ts) :: ·) (ih k)
    | init writes => exact ih k
    | finalize writes => exact ih k

/-- The timestamp as `encode` computes it from the number of samples before the frame. -/
def stampAt (fmt : Format) (k : Nat) : UInt64 :=
  UInt64.ofNat (k * fmt.frameSize) * 1000 * 1000 * 1000 / fmt.rate

variable {c : Codec} {nChannels : Nat}

namespace Sink

/-- As long as nothing is finalised, `granule` counts the samples of all frames so far. -/
structure Stamped (fmt : Format) (k : Sink c) : Prop where
  granule : k.granule = UInt64.ofNat ((frames k.calls).length * fmt.frameSize)
  stamp : ∀ i ts, (i, ts) ∈ stamps k.calls → ts = stampAt fmt i
  below : ∀ i ts, (i, ts) ∈ stamps k.calls → i < (frames k.calls).length
  ordered : (stamps k.calls).Pairwise fun a b => a.1 < b.1

theorem stamps_frame (fmt : Format) (bitrate : Nat) (k : Sink c) (frame : List FloatBits) :
    stamps (k.frame fmt bitrate frame).calls = stamps k.calls ++
      if 0 < (c.opusEncodeFloat k.enc bitrate frame).2.1 then
        [((frames k.calls).length, k.granule * 1000 * 1000 * 1000 / fmt.rate)]
      else [] := by
  by_cases coded : 0 < (c.opusEncodeFloat k.enc bitrate frame).2.1
  · simp [Sink.frame, coded, stamps, stampsFrom_append, stampsFrom, frames]
  · simp [Sink.frame, coded, stamps, stampsFrom_append, stampsFrom]

theorem Stamped.frame {fmt : Format} {k : Sink c} (h : k.Stamped fmt) (bitrate : Nat)
    (frame : List FloatBits) : (k.frame fmt bitrate frame).Stamped fmt := by
  have count : (frames (k.frame fmt bitrate frame).calls).length = (frames k.calls).length + 1 := by
    rw [frames_frame, List.length_append, List.length_singleton]
  have new : ∀ i ts, (i, ts) ∈ stamps (k.frame fmt bitrate frame).calls →
      (i, ts) ∈ stamps k.calls ∨ i = (frames k.calls).length ∧ ts = stampAt fmt i := by
    intro i ts member
    rw [stamps_frame, List.mem_append] at member
    rcases member with old | last
    · exact .inl old
    · split at last
      · simp only [List.mem_singleton, Prod.mk.injEq] at last
        obtain ⟨rfl, rfl⟩ := last
        exact .inr ⟨rfl, by rw [h.granule, stampAt]⟩
      · simp at last
  constructor
  · have granule : (k.frame fmt bitrate frame).granule = k.granule + UInt64.ofNat fmt.frameSize := by
      simp only [Sink.frame]
      split <;> rfl
    rw [granule, h.granule, count, Nat.succ_mul, UInt64.ofNat_add]
  · intro i ts member
    rcases new i ts member with old | ⟨_, last⟩
    · exact h.stamp i ts old
    · exact last
  · intro i ts member
    rw [count]
    rcases new i ts member with old | ⟨rfl, _⟩
    · exact Nat.lt_succ_of_lt (h.below i ts old)
    · exact Nat.lt_succ_self _
  · rw [stamps_frame, List.pairwise_append]
    refine ⟨h.ordered, ?_, ?_⟩
    · split <;> simp
    · intro a old b last
      split at last
      · simp only [List.mem_singleton] at last
        rw [last]
        exact h.below a.1 a.2 old
      · simp at last

theorem Stamped.foldl {fmt : Format} {k : Sink c} (h : k.Stamped fmt) (bitrate : Nat)
    (bs : List (List FloatBits)) : (bs.foldl (Sink.frame fmt bitrate) k).Stamped fmt := by
  induction bs generalizing k with
  | nil => exact h
  | cons b bs ih => exact ih (h.frame bitrate b)

theorem stamps_close (k : Sink c) : stamps k.close.calls = stamps k.calls := by
  simp [close, stamps, stampsFrom_append, stampsFrom]

end Sink

/-- What `Stamped` says about the calls goes on after the end, where `granule` is reset. -/
structure Framer.Stamped (f : Framer c) : Prop where
  active : f.done = false → f.sink.Stamped f.format
  stamp : ∀ i ts, (i, ts) ∈ stamps f.sink.calls → ts = stampAt f.format i
  ordered : (stamps f.sink.calls).Pairwise fun a b => a.1 < b.1

theorem Sink.Stamped.framer {f : Framer c} (h : f.sink.Stamped f.format) : f.Stamped :=
  ⟨fun _ => h, h.stamp, h.ordered⟩

theorem Framer.Stamped.apply {f : Framer c} (h : f.Stamped) (op : EncoderOp nChannels) :
    (f.apply op).Stamped := by
  by_cases closed : f.done = true
  · have idle : f.apply op = f := by
      cases op <;> simp [Framer.apply, Framer.feed, Framer.finalize, closed]
    rwa [idle]
  · have active : f.done = false := by simpa using closed
    have sink := h.active active
    cases op with
    | feed block bitrate =>
      have fed : (f.feed bitrate block.floats).sink.Stamped f.format := by
        simp only [Framer.feed, active]
        exact sink.foldl bitrate _
      exact Sink.Stamped.framer (by rwa [Framer.apply_format])
    | finalize bitrate =>
      have last := sink.frame bitrate
        (f.pending ++ List.replicate (f.format.frameLength - f.pending.length) 0)
      have flushed := Framer.finalize_of_active bitrate active
      refine ⟨fun opened => ?_, ?_, ?_⟩
      · simp [Framer.apply] at opened
      · simp only [Framer.apply, flushed, Sink.stamps_close]
        exact last.stamp
      · simp only [Framer.apply, flushed, Sink.stamps_close]
        exact last.ordered

theorem Framer.Stamped.run {f : Framer c} (h : f.Stamped) (ops : List (EncoderOp nChannels)) :
    (ops.foldl Framer.apply f).Stamped := by
  induction ops generalizing f with
  | nil => exact h
  | cons op ops ih => exact ih (h.apply op)

section Exact

theorem toNat_stampAt (fmt : Format) (k : Nat) :
    (stampAt fmt k).toNat =
      k * fmt.frameSize * 1000000000 % 18446744073709551616 / fmt.rate.toNat := by
  have product : (UInt64.ofNat (k * fmt.frameSize) * 1000 * 1000 * 1000).toNat =
      k * fmt.frameSize * 1000000000 % 18446744073709551616 := by
    simp only [UInt64.toNat_mul, UInt64.toNat_ofNat', UInt64.reduceToNat]
    omega
  rw [stampAt, UInt64.toNat_div, product]

/-- A product that wraps is too small by more than the division forgives. -/
theorem quotient_exact_iff {n rate : Nat} (positive : 0 < rate)
    (small : rate ≤ 18446744073709551616) :
    n % 18446744073709551616 / rate = n / rate ↔ n < 18446744073709551616 := by
  constructor
  · intro same
    by_contra wraps
    have less : n % 18446744073709551616 + rate ≤ n := by omega
    have smaller := Nat.div_le_div_right (c := rate) less
    rw [Nat.add_div_right _ positive] at smaller
    omega
  · intro fits
    rw [Nat.mod_eq_of_lt fits]

end Exact

namespace EncoderImpl

theorem create_stamped (c : Codec) (rate : UInt64) (nChannels : Nat) :
    (create c rate nChannels).view.sink.Stamped (create c rate nChannels).view.format := by
  refine ⟨?_, ?_, ?_, ?_⟩ <;> simp [create, view, sink, stamps, stampsFrom, frames]

/-- Frame `k` has its exact timestamp when the product in 64 bits does not wrap. -/
theorem timestamps_exact_iff (c : Codec) (nChannels : Nat) (ops : List (EncoderOp nChannels))
    (channels : 1 ≤ nChannels) :
    ∃ e outs, (create c 48000 nChannels).run ops = some (e, outs) ∧
      (∀ k ts, (k, ts) ∈ stamps e.calls →
        (ts.toNat = k * 1920 * 1000000000 / 48000 ↔ k * 1920 * 1000000000 < 2 ^ 64)) ∧
      ((∀ k ts, (k, ts) ∈ stamps e.calls → ts.toNat = k * 1920 * 1000000000 / 48000) ∧
          (stamps e.calls).Pairwise (fun a b => a.2 < b.2) ↔
        ∀ k ts, (k, ts) ∈ stamps e.calls → k * 1920 * 1000000000 < 2 ^ 64) := by
  have valid := create_valid (c := c) 48000 nChannels (by decide) channels
  have positive : 0 < (48000 : UInt64).toNat := by decide
  have small : (48000 : UInt64).toNat ≤ 18446744073709551616 := by decide
  have same : (create c 48000 nChannels).nChannels = nChannels := rfl
  obtain ⟨e, outs, ran, _, format, view⟩ := run_spec valid same ops
  have stamped := (create_stamped c 48000 nChannels).framer.run ops
  have rate : e.view.format = ⟨48000, nChannels, 1920⟩ := format
  rw [← view] at stamped
  have each : ∀ k ts, (k, ts) ∈ stamps e.calls →
      (ts.toNat = k * 1920 * 1000000000 / 48000 ↔ k * 1920 * 1000000000 < 2 ^ 64) := by
    intro k ts member
    rw [stamped.stamp k ts member, toNat_stampAt, rate]
    exact quotient_exact_iff positive small
  refine ⟨e, outs, ran, each, fun exact k ts member => (each k ts member).mp (exact.1 k ts member),
    fun below => ⟨fun k ts member => (each k ts member).mpr (below k ts member), ?_⟩⟩
  refine stamped.ordered.imp_of_mem fun {a b} first second earlier => ?_
  have left := (each a.1 a.2 first).mpr (below a.1 a.2 first)
  have right := (each b.1 b.2 second).mpr (below b.1 b.2 second)
  rw [UInt64.lt_iff_toNat_lt, left, right]
  omega

theorem timestamps_exact_small_blocks :
    ∃ e outs, (create Codec.plain 48000 2).run
        (smallBlocks.map (EncoderOp.feed · 196000) ++ [.finalize 196000]) = some (e, outs) ∧
      ∀ k ts, (k, ts) ∈ stamps e.calls →
        (ts.toNat = k * 1920 * 1000000000 / 48000 ↔ k * 1920 * 1000000000 < 2 ^ 64) := by
  obtain ⟨e, outs, ran, each, _⟩ := timestamps_exact_iff Codec.plain 2
    (smallBlocks.map (EncoderOp.feed · 196000) ++ [.finalize 196000]) (by decide)
  exact ⟨e, outs, ran, each⟩

end EncoderImpl

theorem Sink.stamps_foldl_of_talks (talks : c.Talks) (fmt : Format) (bitrate : Nat)
    (bs : List (List FloatBits)) (k : Sink c) :
    (stamps (bs.foldl (Sink.frame fmt bitrate) k).calls).map Prod.fst =
      (stamps k.calls).map Prod.fst ++ List.range' (frames k.calls).length bs.length := by
  induction bs generalizing k with
  | nil => simp
  | cons b bs ih =>
    rw [List.foldl_cons, ih, stamps_frame, if_pos (talks.size _ _ _), frames_frame,
      List.length_append, List.length_singleton, List.length_cons, List.range'_succ,
      List.map_append, List.append_assoc]
    rfl

namespace EncoderImpl

/-- A little less than 107 hours of silence. -/
def longSilence : Pcm 2 where
  floats := List.replicate (9607681 * 1920 * 2) 0
  nSamples := 9607681 * 1920
  length := List.length_replicate

theorem long_stream_wraps :
    ∃ e outs ts, (create Codec.plain 48000 2).run ([longSilence].map (EncoderOp.feed · 196000)) =
        some (e, outs) ∧ (9607680, ts) ∈ stamps e.calls ∧ ts.toNat = 31797717 ∧
      9607680 * 1920 * 1000000000 / 48000 = 384307200000000 := by
  have valid := create_valid (c := Codec.plain) 48000 2 (by decide) (by decide)
  obtain ⟨e, outs, ran, _, _, view⟩ :=
    run_spec valid rfl ([longSilence].map (EncoderOp.feed · 196000))
  have fed := (create_stamped Codec.plain 48000 2).foldl 196000
    (Blocks.blocks 3840 longSilence.floats)
  have muxed := Sink.stamps_foldl_of_talks plain_talks (create Codec.plain 48000 2).view.format
    196000 (Blocks.blocks 3840 longSilence.floats) (create Codec.plain 48000 2).view.sink
  have calls : e.calls = ((Blocks.blocks 3840 longSilence.floats).foldl
      (Sink.frame (create Codec.plain 48000 2).view.format 196000)
      (create Codec.plain 48000 2).view.sink).calls :=
    congrArg (fun f : Framer Codec.plain => f.sink.calls) view
  have count : (Blocks.blocks 3840 longSilence.floats).length = 9607681 := by
    rw [Blocks.length_blocks, longSilence.length]
    rfl
  have member : 9607680 ∈ (stamps e.calls).map Prod.fst := by
    rw [calls, muxed, count, List.mem_append]
    exact .inr (List.mem_range'_1.mpr ⟨Nat.zero_le _, by decide⟩)
  obtain ⟨⟨k, ts⟩, stamped, rfl⟩ := List.mem_map.mp member
  have value : ts.toNat = 31797717 := by
    rw [fed.stamp _ ts (calls ▸ stamped), toNat_stampAt]
    rfl
  exact ⟨e, outs, ts, ran, stamped, value, rfl⟩

end EncoderImpl

end HttpAudioServer

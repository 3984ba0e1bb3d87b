import HttpAudioServer.Playback

/-! The loops end, and what they subtract is there. The model subtracts natural numbers, so
that nothing wraps is said for each round: what is taken away is at most what it is taken
from. -/
namespace HttpAudioServer

variable {c : Codec}

namespace EncoderImpl

/-- What holds between two calls of `encode`. -/
structure Between (e : EncoderImpl c) : Prop where
  room : e.bufPtr < e.buf.length
  whole : e.nChannels ∣ e.bufPtr

theorem Valid.between {e : EncoderImpl c} (valid : e.Valid) : e.Between :=
  ⟨valid.ptrInside, valid.ptrWhole⟩

/-- The subtractions of one round of `encode`. -/
structure NoWrap (l : Loop c) : Prop where
  space : l.impl.bufPtr ≤ l.impl.buf.length
  samples : floatsIn l / l.impl.nChannels ≤ l.nSamples

theorem Valid.noWrap {l : Loop c} (valid : l.impl.Valid) : NoWrap l where
  space := Nat.le_of_lt valid.ptrInside
  samples := by
    apply Nat.div_le_of_le_mul
    rw [Nat.mul_comm]
    exact Nat.min_le_right _ _

/-- The loop of a call of `encode` ends, and no round of it wraps. -/
structure RunsOut (bitrate : Nat) (flush : Bool) (start : Loop c) : Prop where
  ends : ∃ l, rounds bitrate flush start = .done l
  rounds : ∀ l, Imperative.Rounds (fun l => decide (0 < l.nSamples))
    (fun l => (.done (round bitrate flush l) : Imperative.Outcome Empty (Loop c))) start l → NoWrap l

theorem feed_runsOut {e : EncoderImpl c} (valid : e.Valid) (active : e.done = false)
    (bitrate : Nat) {pcm : List FloatBits} {nSamples : Nat}
    (room : nSamples * e.nChannels ≤ pcm.length) : RunsOut bitrate false ⟨e, pcm, nSamples⟩ := by
  have start : Feeding bitrate e (pcm.take (nSamples * e.nChannels)) ⟨e, pcm, nSamples⟩ :=
    ⟨valid, active, rfl, room, rfl, rfl⟩
  obtain ⟨l, ends, _⟩ := start.rounds.done
  refine ⟨⟨l, ends⟩, fun l begins => ?_⟩
  have feeding : Feeding bitrate e (pcm.take (nSamples * e.nChannels)) l :=
    begins.keep _ (fun _ _ => False) start fun l h _ => h.next.1
  exact feeding.valid.noWrap

theorem finalize_runsOut {e : EncoderImpl c} (valid : e.Valid) (bitrate : Nat) :
    RunsOut bitrate true ⟨e, [], 0⟩ := by
  have ends := rounds_finalize valid bitrate
  refine ⟨⟨_, ends⟩, fun l begins => ?_⟩
  -- The only round leaves nothing to come
  have only : l = ⟨e, [], 0⟩ := by
    refine begins.keep (fun l => l = ⟨e, [], 0⟩) (fun _ _ => False) rfl ?_
    rintro l rfl again
    have last : (round bitrate true ⟨e, [], 0⟩).nSamples = 0 := by
      rw [round_finalize valid]
    simp [last] at again
  rw [only]
  exact Valid.noWrap valid

end EncoderImpl

namespace Stream

/-- The subtraction of one round of `advance`, once the decoder at the front is there, and the
call of `feed` after it. -/
def ReadNoWrap (l : Advance c) : Prop :=
  ∀ entry later dec, l.stream.decoders = entry :: later → entry.dec = some dec →
    (dec.read l.nBytes l.stream.buf).1 ≠ 0 →
      (dec.read l.nBytes l.stream.buf).2.1.length ≤ l.nBytes ∧
      (l.stream.encoder.done = false →
        EncoderImpl.RunsOut l.stream.bitrate false ⟨l.stream.encoder,
          floatsOf (dec.read l.nBytes l.stream.buf).2.1,
          (dec.read l.nBytes l.stream.buf).2.1.length / 4 / 2⟩)

theorem Ready.readNoWrap {l : Advance c} (ready : l.stream.Ready) : ReadNoWrap l := by
  intro entry later dec _ _ _
  obtain ⟨next, read, _⟩ := dec.read_spec l.nBytes l.stream.buf
  rw [read, ready.buf, List.nil_append]
  refine ⟨Output.length_take_le _ _, fun active => ?_⟩
  apply EncoderImpl.feed_runsOut ready.valid active
  have stereo : l.stream.encoder.nChannels = 2 := congrArg Format.nChannels ready.format
  rw [stereo, length_floatsOf]
  omega

/-- A call of `advance` ends, whatever the decoders give, and so do the calls of `encode` in
it; nothing wraps, and between the calls of `encode` its buffer has room. -/
theorem advance_terminates (bitrate : Nat) (ops : List Op) (s : Stream c) (replies : List Reply)
    (reached : run (create c bitrate) ops = some (s, replies)) (media : Media) (samples : Nat) :
    s.encoder.Between ∧
    (s.advance media samples).Ends (fun l => l.stream.encoder.Between)
      (fun _ l => l.stream.encoder.Between) ∧
    (∀ l, wants (.start samples s) = true →
      Imperative.Rounds wants (advanceBody media) (.start samples s) l →
        l.stream.encoder.Between ∧ ∀ m, openFront media l = .done m → ReadNoWrap m) ∧
    (∀ l, advanceLoop media samples s = .done l → l.stream.decoders = [] →
      l.stream.encoder.Between ∧
      (l.stream.encoder.done = false →
        EncoderImpl.RunsOut l.stream.bitrate true ⟨l.stream.encoder, [], 0⟩)) := by
  have ready := run_ready reached
  refine ⟨ready.valid.between, ?_, ?_, ?_⟩
  · apply (advance_acts media samples ready).mono
    · rintro l ⟨m, acts, _, finishes⟩
      exact (finishes.ready (acts.ready ready)).valid.between
    · rintro _ l ⟨m, acts, fails⟩
      exact (fails.ready (acts.ready ready)).valid.between
  · intro l wanted begins
    have kept : Acts media (.start samples s) l ∧ wants l = true := by
      refine begins.keep (fun l => Acts media (.start samples s) l ∧ wants l = true)
        (fun _ _ => True) ⟨.refl, wanted⟩ ?_
      rintro t ⟨acts, go⟩
      apply (advanceBody_acts (acts.ready ready) go).mono
      · rintro u ⟨more, _⟩ again
        exact ⟨acts.trans more, again⟩
      · exact fun _ _ _ => trivial
    have within := kept.1.ready ready
    refine ⟨within.valid.between, fun m opens => ?_⟩
    have acts : Acts media l m := by
      cases front : l.stream.decoders with
      | nil => simp [wants, front] at kept
      | cons e later =>
        have opened : (openFront media l).Ends _ _ := openFront_acts front
        rw [opens] at opened
        exact opened.1
    exact (acts.ready within).readNoWrap
  · intro l ended _
    have loop := advanceLoop_acts media samples ready
    rw [ended] at loop
    have valid := (loop.1.ready ready).valid
    exact ⟨valid.between, fun _ => EncoderImpl.finalize_runsOut valid _⟩

def endless : Media where
  decoder _ _ := .ok (.endless (Stream'.const 0))
  metadata _ := .ok .unknown

theorem advance_terminates_endless :
    ∃ s replies, run (create Codec.plain 196000) [.append (str "a") 0] = some (s, replies) ∧
      (s.advance endless 240000).Ends (fun l => l.stream.encoder.Between)
        (fun _ l => l.stream.encoder.Between) := by
  obtain ⟨s, replies, reached⟩ : ∃ s replies,
      run (create Codec.plain 196000) [.append (str "a") 0] = some (s, replies) := ⟨_, _, rfl⟩
  exact ⟨s, replies, reached, (advance_terminates 196000 _ s replies reached endless 240000).2.1⟩

end Stream

end HttpAudioServer

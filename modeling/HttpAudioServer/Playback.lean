import HttpAudioServer.Framer
import HttpAudioServer.Stream
import Mathlib.Logic.Relation

/-! Everything a call of `advance` can do, as a relation: open the entry at the front,
read from it, or remove it. Each law of playback below and in the modules after this one
is a property that these three acts keep, and one induction carries it through a call. -/
namespace HttpAudioServer

namespace Entry

def reads (e : Entry) : List Read :=
  match e.dec with
  | none => []
  | some d => d.log

def delivered (e : Entry) : Bytes := e.reads.flatMap Read.got

end Entry

/-- The whole samples at the start of a block of bytes, as floats. -/
def wholeFloats (got : Bytes) : List FloatBits := (floatsOf got).take (got.length / 4 / 2 * 2)

theorem length_floatsOf (bytes : Bytes) : (floatsOf bytes).length = bytes.length / 4 := by
  simp [floatsOf, Blocks.length_blocks]

theorem length_wholeFloats (got : Bytes) : (wholeFloats got).length = got.length / 8 * 2 := by
  rw [wholeFloats, List.length_take, length_floatsOf, Nat.div_div_eq_div_mul]
  omega

variable {c : Codec}

/-- What feeding the bytes `got` does to the encoder; `out` is dumped. -/
structure Fed (e : EncoderImpl c) (bitrate : Nat) (got : Bytes) (e' : EncoderImpl c)
    (out : Bytes) : Prop where
  valid : e'.Valid
  view : e'.view = e.view.feed bitrate (wholeFloats got)
  dumped : e'.mkvWriter.dumped = e.mkvWriter.dumped ++ out
  drained : e.done = false → got ≠ [] → e'.mkvWriter.buf = []
  idle : e.done = true → e' = e
  nothing : got = [] → e' = e ∧ out = []

namespace Stream

namespace Advance

theorem start_stream (samples : Nat) (s : Stream c) : (start samples s).stream = s := rfl

def withFront (l : Advance c) (e : Entry) (later : List Entry) : Advance c :=
  { l with stream := { l.stream with decoders := e :: later } }

def opened (l : Advance c) (e : Entry) (later : List Entry) (output : Output)
    (record : Record) : Advance c :=
  { l.withFront { e with dec := some (Decoder.start output), record := some record } later with
    metadata := l.metadata ++ [record] }

def read (l : Advance c) (e : Entry) (later : List Entry) (d : Decoder) (got : Bytes)
    (encoder : EncoderImpl c) (out : Bytes) : Advance c :=
  { l with
    stream := { l.stream with
      decoders := { e with dec := some d } :: later
      encoder := encoder
      nSamples := l.stream.nSamples + got.length / 4 / 2 }
    nBytes := l.nBytes - got.length
    osBufData := l.osBufData ++ out }

def withBuf (l : Advance c) (buf : Bytes) : Advance c :=
  { l with stream := { l.stream with buf := buf } }

def popped (l : Advance c) (e : Entry) (later : List Entry) : Advance c :=
  { l with stream := { l.stream with
      decoders := later
      removed := l.stream.removed ++ [e] } }

end Advance

inductive Act (media : Media) : Advance c → Advance c → Prop where
  | opens {l : Advance c} {e : Entry} {later : List Entry} {output : Output}
      {metadata : Metadata} (front : l.stream.decoders = e :: later) (fresh : e.dec = none)
      (decoder : media.decoder e.filename e.offs = .ok output)
      (probe : media.metadata e.filename = .ok metadata) :
      Act media l (l.opened e later output
        ⟨(l.stream.nSamples : Rat) / 48000, e.filename, metadata⟩)
  | reads {l : Advance c} {e : Entry} {later : List Entry} {d next : Decoder} {got : Bytes}
      {encoder : EncoderImpl c} {out : Bytes} (wanted : 0 < l.nBytes)
      (front : l.stream.decoders = e :: later) (dec : e.dec = some d)
      (taken : got = d.stdout.take l.nBytes)
      (left : next.stdout = d.stdout.drop l.nBytes)
      (log : next.log = d.log ++ [⟨d.delivered.length, l.nBytes, got⟩])
      (fed : Fed l.stream.encoder l.stream.bitrate got encoder out) :
      Act media l (l.read e later next got encoder out)
  | pops {l : Advance c} {e : Entry} {later : List Entry} {d : Decoder} (wanted : 0 < l.nBytes)
      (front : l.stream.decoders = e :: later) (dec : e.dec = some d)
      (ended : d.stdout = .finite []) :
      Act media l (l.popped e later)

/-- What a call that throws has done since its last act: it had no decoder, or it stored the
decoder and had no metadata. -/
inductive Fails (media : Media) : Advance c → Advance c → Prop where
  | decoder {l : Advance c} {e : Entry} {later : List Entry} {error : Exn}
      (front : l.stream.decoders = e :: later) (fresh : e.dec = none)
      (failed : media.decoder e.filename e.offs = .error error) : Fails media l l
  | metadata {l : Advance c} {e : Entry} {later : List Entry} {output : Output} {error : Exn}
      (front : l.stream.decoders = e :: later) (fresh : e.dec = none)
      (decoder : media.decoder e.filename e.offs = .ok output)
      (failed : media.metadata e.filename = .error error) :
      Fails media l (l.withFront { e with dec := some (Decoder.start output) } later)

abbrev Acts (media : Media) : Advance c → Advance c → Prop := Relation.ReflTransGen (Act media)

structure Ready (s : Stream c) : Prop where
  valid : s.encoder.Valid
  format : s.encoder.format = ⟨48000, 2, 1920⟩
  buf : s.buf = []

theorem create_ready (bitrate : Nat) : (create c bitrate).Ready where
  valid := EncoderImpl.create_valid 48000 2 (by decide) (by decide)
  format := rfl
  buf := rfl

theorem Act.ready {media : Media} {l l' : Advance c} (h : Act media l l')
    (ready : l.stream.Ready) : l'.stream.Ready := by
  cases h with
  | opens => exact ⟨ready.valid, ready.format, ready.buf⟩
  | reads _ _ _ _ _ _ fed =>
    refine ⟨fed.valid, ?_, ready.buf⟩
    have same := congrArg Framer.format fed.view
    rw [Framer.feed_format] at same
    exact same.trans ready.format
  | pops => exact ⟨ready.valid, ready.format, ready.buf⟩

theorem Acts.ready {media : Media} {l l' : Advance c} (h : Acts media l l')
    (ready : l.stream.Ready) : l'.stream.Ready := by
  induction h with
  | refl => exact ready
  | tail _ act ih => exact act.ready ih

theorem Acts.done {media : Media} {l l' : Advance c} (acts : Acts media l l') :
    l'.stream.encoder.done = l.stream.encoder.done := by
  induction acts with
  | refl => rfl
  | tail _ act ih =>
    cases act with
    | opens => exact ih
    | reads _ _ _ _ _ _ fed =>
      have same := congrArg Framer.done fed.view
      rw [Framer.feed_done] at same
      exact same.trans ih
    | pops => exact ih

theorem Acts.idle {media : Media} {l l' : Advance c} (acts : Acts media l l')
    (closed : l.stream.encoder.done = true) : l'.stream.encoder = l.stream.encoder := by
  induction acts with
  | refl => rfl
  | tail _ act ih =>
    cases act with
    | opens => exact ih
    | reads _ _ _ _ _ _ fed => exact (fed.idle (by rw [ih, closed])).trans ih
    | pops => exact ih

theorem Acts.bitrate {media : Media} {l l' : Advance c} (acts : Acts media l l') :
    l'.stream.bitrate = l.stream.bitrate := by
  induction acts with
  | refl => rfl
  | tail _ act ih => cases act <;> exact ih

theorem Acts.dumped {media : Media} {samples : Nat} {s : Stream c} {l : Advance c}
    (acts : Acts media (.start samples s) l) :
    l.stream.encoder.mkvWriter.dumped = s.encoder.mkvWriter.dumped ++ l.osBufData := by
  induction acts with
  | refl => exact (List.append_nil _).symm
  | tail _ act ih =>
    cases act with
    | opens => exact ih
    | reads _ _ _ _ _ _ fed =>
      simp only [Advance.read]
      rw [fed.dumped, ih, List.append_assoc]
    | pops => exact ih

theorem openFront_acts {media : Media} {l : Advance c} {e : Entry} {later : List Entry}
    (front : l.stream.decoders = e :: later) :
    (openFront media l).Ends
      (fun m => Acts media l m ∧ m.nBytes = l.nBytes ∧
        ∃ e' d, m.stream.decoders = e' :: later ∧ e'.dec = some d)
      (fun _ m => Fails media l m) := by
  simp only [openFront, front]
  cases dec : e.dec with
  | some d => exact ⟨.refl, rfl, e, d, front, dec⟩
  | none =>
    cases decoder : media.decoder e.filename e.offs with
    | error error => exact Fails.decoder front dec decoder
    | ok output =>
      cases probe : media.metadata e.filename with
      | error error =>
        simp only
        exact Fails.metadata front dec decoder probe
      | ok metadata =>
        simp only
        exact ⟨.single (Act.opens front dec decoder probe), rfl, _, _, rfl, rfl⟩

theorem fed_nothing {e : EncoderImpl c} (valid : e.Valid) (bitrate : Nat) : Fed e bitrate [] e [] where
  valid := valid
  view := (Framer.feed_nil bitrate valid.pending_lt).symm
  dumped := (List.append_nil _).symm
  drained _ some_read := (some_read rfl).elim
  idle _ := rfl
  nothing _ := ⟨rfl, rfl⟩

theorem fed_some {e : EncoderImpl c} (valid : e.Valid) (stereo : e.nChannels = 2) (bitrate : Nat)
    {got : Bytes} (some_read : got ≠ []) : ∃ e' out,
      e.feed (floatsOf got) (got.length / 4 / 2) bitrate = some (e', out) ∧
      Fed e bitrate got e' out := by
  have room : got.length / 4 / 2 * e.nChannels ≤ (floatsOf got).length := by
    rw [stereo, length_floatsOf]
    omega
  obtain ⟨e', out, fed, h⟩ := EncoderImpl.feed_spec valid bitrate room
  have view := h.view
  rw [stereo] at view
  exact ⟨e', out, fed, h.valid, view, h.dumped, fun active _ => h.drained active, h.idle,
    fun empty => (some_read empty).elim⟩

theorem removeFront_withBuf {m : Advance c} {e : Entry} {later : List Entry}
    (front : m.stream.decoders = e :: later) (clean : m.stream.buf = []) (got : Bytes) :
    removeFront (m.withBuf got) = if got.length < m.nBytes then m.popped e later else m := by
  obtain ⟨⟨decoders, encoder, nSamples, buf, bitrate, removed⟩, nBytes, metadata, osBufData⟩ := m
  simp only at front clean
  subst front clean
  rfl

theorem read_nothing (l : Advance c) (e : Entry) (later : List Entry) (d : Decoder) :
    l.read e later d [] l.stream.encoder [] = l.withFront { e with dec := some d } later := by
  simp [Advance.read, Advance.withFront]

theorem readFront_acts {media : Media} {l : Advance c} {e : Entry} {later : List Entry}
    {d : Decoder} (ready : l.stream.Ready) (wanted : 0 < l.nBytes)
    (front : l.stream.decoders = e :: later) (dec : e.dec = some d) :
    (readFront l).Ends
      (fun m => Acts media l m ∧
        m.nBytes + m.stream.decoders.length < l.nBytes + l.stream.decoders.length)
      (fun _ _ => False) := by
  obtain ⟨next, read, left, log⟩ := d.read_spec l.nBytes []
  have stereo : l.stream.encoder.nChannels = 2 := congrArg Format.nChannels ready.format
  have short : (d.stdout.take l.nBytes).length ≠ l.nBytes → next.stdout = .finite [] := by
    intro few
    rw [left]
    exact Output.drop_of_short few
  have atMost := Output.length_take_le l.nBytes d.stdout
  simp only [readFront, front, dec, ready.buf, read, List.nil_append]
  generalize got_eq : d.stdout.take l.nBytes = got at *
  split
  · rename_i none_read
    have empty : got = [] := List.length_eq_zero_iff.mp none_read
    subst empty
    have act : Act media l _ := .reads wanted front dec got_eq.symm left log
      (fed_nothing ready.valid l.stream.bitrate)
    rw [read_nothing] at act
    have clean : (l.withFront { e with dec := some next } later).stream.buf = [] := ready.buf
    change (Imperative.Outcome.done (removeFront
      ((l.withFront { e with dec := some next } later).withBuf []))).Ends _ _
    rw [removeFront_withBuf rfl clean, if_pos (by exact wanted)]
    have ended := short (by simp only [List.length_nil]; omega)
    refine ⟨.tail (.single act) (Act.pops wanted rfl rfl ended), ?_⟩
    simp only [Advance.popped, Advance.withFront, List.length_cons]
    omega
  · rename_i some_read
    obtain ⟨encoder, out, feed, fed⟩ :=
      fed_some ready.valid stereo l.stream.bitrate
        fun empty => some_read (List.length_eq_zero_iff.mpr empty)
    have act : Act media l _ := .reads wanted front dec got_eq.symm left log fed
    rw [feed]
    have clean : (l.read e later next got encoder out).stream.buf = [] := ready.buf
    change (Imperative.Outcome.done (removeFront
      ((l.read e later next got encoder out).withBuf got))).Ends _ _
    rw [removeFront_withBuf rfl clean]
    split
    · rename_i few
      have fewer : got.length < l.nBytes - got.length := few
      refine ⟨.tail (.single act) (Act.pops ?_ rfl rfl (short (by omega))), ?_⟩
      · simp only [Advance.read]
        omega
      · simp only [Advance.popped, Advance.read, List.length_cons]
        omega
    · refine ⟨.single act, ?_⟩
      simp only [Advance.read, List.length_cons]
      omega

theorem advanceBody_acts {media : Media} {l : Advance c} (ready : l.stream.Ready)
    (go : wants l = true) :
    (advanceBody media l).Ends
      (fun m => Acts media l m ∧
        m.nBytes + m.stream.decoders.length < l.nBytes + l.stream.decoders.length)
      (fun _ m => Fails media l m) := by
  simp only [wants, Bool.and_eq_true, decide_eq_true_eq, Bool.not_eq_true',
    List.isEmpty_eq_false_iff_exists_mem] at go
  obtain ⟨wanted, _, some_entry⟩ := go
  cases front : l.stream.decoders with
  | nil => simp [front] at some_entry
  | cons e later =>
    apply (openFront_acts front).bind
    rintro m ⟨acts, sameBytes, e', d, opened, dec⟩
    have read : (readFront m).Ends (fun m' => Acts media m m' ∧ _) _ :=
      readFront_acts (acts.ready ready) (sameBytes ▸ wanted) opened dec
    apply read.mono
    · rintro m' ⟨more, lower⟩
      refine ⟨acts.trans more, ?_⟩
      simpa only [sameBytes, opened, List.length_cons] using lower
    · intro _ _ impossible
      exact impossible.elim

theorem advanceLoop_acts (media : Media) (samples : Nat) {s : Stream c} (ready : s.Ready) :
    (advanceLoop media samples s).Ends
      (fun l => Acts media (.start samples s) l ∧ wants l = false)
      (fun _ l' => ∃ l, Acts media (.start samples s) l ∧ Fails media l l') := by
  apply Imperative.whileLoop_ends (Acts media (.start samples s))
    fun l => l.nBytes + l.stream.decoders.length
  · intro l _ go
    simp only [wants, Bool.and_eq_true, decide_eq_true_eq] at go
    omega
  · intro l acts go
    apply (advanceBody_acts (acts.ready ready) go).mono
    · rintro m ⟨more, lower⟩
      exact ⟨acts.trans more, lower⟩
    · intro _ m failed
      exact ⟨l, acts, failed⟩
  · exact .refl
  · exact Nat.le_refl _

inductive Finishes : Advance c → Advance c → Prop where
  | stays {l : Advance c} (more : l.stream.decoders ≠ []) : Finishes l l
  | closes {l : Advance c} {encoder : EncoderImpl c} {out : Bytes}
      (drained : l.stream.decoders = [])
      (closed : EncoderImpl.Encoded l.stream.encoder
        (l.stream.encoder.view.finalize l.stream.bitrate) encoder out) :
      Finishes l { l with
        stream := { l.stream with encoder := encoder }
        osBufData := l.osBufData ++ out }

theorem Finishes.dumped {s : Stream c} {l l' : Advance c} (finishes : Finishes l l')
    (before : l.stream.encoder.mkvWriter.dumped = s.encoder.mkvWriter.dumped ++ l.osBufData) :
    l'.stream.encoder.mkvWriter.dumped = s.encoder.mkvWriter.dumped ++ l'.osBufData := by
  cases finishes with
  | stays => exact before
  | closes _ closed =>
    simp only
    rw [closed.dumped, before, List.append_assoc]

theorem finalizeIfDone_finishes {l : Advance c} (ready : l.stream.Ready) :
    ∃ m, finalizeIfDone l = .done m ∧ Finishes l m := by
  cases drained : l.stream.decoders with
  | nil =>
    obtain ⟨encoder, out, closed, h⟩ :=
      EncoderImpl.finalize_spec ready.valid l.stream.bitrate
    exact ⟨_, by simp [finalizeIfDone, drained, closed], Finishes.closes drained h⟩
  | cons e later =>
    exact ⟨l, by simp [finalizeIfDone, drained], Finishes.stays (by simp [drained])⟩

theorem advance_acts (media : Media) (samples : Nat) {s : Stream c} (ready : s.Ready) :
    (advance media samples s).Ends
      (fun l' => ∃ l, Acts media (.start samples s) l ∧ wants l = false ∧ Finishes l l')
      (fun _ l' => ∃ l, Acts media (.start samples s) l ∧ Fails media l l') := by
  apply (advanceLoop_acts media samples ready).bind
  rintro l ⟨acts, stop⟩
  obtain ⟨m, final, finishes⟩ := finalizeIfDone_finishes (acts.ready ready)
  rw [final]
  exact ⟨l, acts, stop, finishes⟩

/-- What a call on a stream does, by the way it ends. -/
inductive Steps (s : Stream c) : Op → Stream c → Reply → Prop where
  | appends (filename : Bytes) (offs : Rat) :
      Steps s (.append filename offs) (s.append filename offs) .appended
  | returns {media : Media} {samples : Nat} {l l' : Advance c}
      (returned : s.advance media samples = .done l')
      (acts : Acts media (.start samples s) l) (stop : wants l = false)
      (finishes : Finishes l l') :
      Steps s (.advance media samples) l'.stream (.segments l'.metadata l'.osBufData)
  | throws {media : Media} {samples : Nat} {l l' : Advance c} {e : Exn}
      (thrown : s.advance media samples = .thrown e l')
      (acts : Acts media (.start samples s) l) (fails : Fails media l l') :
      Steps s (.advance media samples) l'.stream (.threw e)

theorem Steps.idle {s t : Stream c} {op : Op} {reply : Reply} (steps : Steps s op t reply)
    (closed : s.encoder.done = true) : t.encoder = s.encoder := by
  cases steps with
  | appends => rfl
  | returns _ acts _ finishes =>
    have same := acts.idle closed
    cases finishes with
    | stays => exact same
    | closes _ finalised => exact (finalised.idle (by rw [same]; exact closed)).trans same
  | throws _ acts fails =>
    have same := acts.idle closed
    cases fails <;> exact same

theorem Steps.step {s t : Stream c} {op : Op} {reply : Reply} (steps : Steps s op t reply) :
    step s op = some (t, reply) := by
  cases steps with
  | appends => rfl
  | returns returned => simp [Stream.step, returned]
  | throws thrown => simp [Stream.step, thrown]

theorem step_spec {s : Stream c} (ready : s.Ready) (op : Op) :
    ∃ t reply, step s op = some (t, reply) ∧ Steps s op t reply := by
  cases op with
  | append filename offs => exact ⟨_, _, rfl, .appends filename offs⟩
  | advance media samples =>
    have ends := advance_acts media samples ready
    cases h : s.advance media samples with
    | done l' =>
      rw [h] at ends
      obtain ⟨l, acts, stop, finishes⟩ := ends
      exact ⟨_, _, by simp [step, h], .returns h acts stop finishes⟩
    | thrown e l' =>
      rw [h] at ends
      obtain ⟨l, acts, fails⟩ := ends
      exact ⟨_, _, by simp [step, h], .throws h acts fails⟩
    | running =>
      rw [h] at ends
      exact ends.elim

theorem Fails.ready {media : Media} {l l' : Advance c} (fails : Fails media l l')
    (ready : l.stream.Ready) : l'.stream.Ready := by
  cases fails with
  | decoder => exact ready
  | metadata => exact ⟨ready.valid, ready.format, ready.buf⟩

theorem Finishes.ready {l l' : Advance c} (finishes : Finishes l l') (ready : l.stream.Ready) :
    l'.stream.Ready := by
  cases finishes with
  | stays => exact ready
  | closes drained closed =>
    have format := congrArg Framer.format closed.view
    exact ⟨closed.valid, (format.trans (Framer.finalize_format _ _)).trans ready.format, ready.buf⟩

theorem Steps.ready {s t : Stream c} {op : Op} {reply : Reply} (steps : Steps s op t reply)
    (ready : s.Ready) : t.Ready := by
  cases steps with
  | appends => exact ⟨ready.valid, ready.format, ready.buf⟩
  | returns _ acts _ finishes => exact finishes.ready (acts.ready ready)
  | throws _ acts fails => exact fails.ready (acts.ready ready)

theorem run_ready {bitrate : Nat} {ops : List Op} {s : Stream c} {replies : List Reply}
    (reached : run (create c bitrate) ops = some (s, replies)) : s.Ready := by
  obtain ⟨t, _, same, ready⟩ := Run.run_induct (fun _ _ (t : Stream c) => t.Ready) (fun _ _ => True)
    (create_ready bitrate)
    (fun _ _ _ op _ ready _ =>
      let ⟨t, reply, stepped, steps⟩ := step_spec ready op
      ⟨t, reply, stepped, steps.ready ready⟩)
    ops (Run.along_of_forall fun _ _ => trivial)
  cases reached.symm.trans same
  exact ready

end Stream

end HttpAudioServer

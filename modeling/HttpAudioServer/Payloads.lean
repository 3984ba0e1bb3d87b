import HttpAudioServer.Announcements
import HttpAudioServer.EndOfStream

/-! The way of the encoded bytes: from the muxer into the writer, drained into a string stream
during a call of `advance`, and from there into the data segment, after its size. -/
namespace HttpAudioServer

/-- What happens to a writer: the muxer writes, and the encoder dumps. -/
inductive WriterOp where
  | write (block : Bytes)
  | dump

def WriterOp.bytes : WriterOp → Bytes
  | .write block => block
  | .dump => []

namespace BufferMkvWriter

def apply (w : BufferMkvWriter) : WriterOp → BufferMkvWriter
  | .write block => w.write block
  | .dump => w.dump.1

theorem position_apply (w : BufferMkvWriter) (op : WriterOp) :
    (w.apply op).position = w.position + op.bytes.length := by
  cases op <;> rfl

theorem position_applies (w : BufferMkvWriter) (ops : List WriterOp) :
    (ops.foldl apply w).position = w.position + (ops.flatMap WriterOp.bytes).length := by
  induction ops generalizing w with
  | nil => rfl
  | cons op ops ih =>
    rw [List.foldl_cons, ih, position_apply, List.flatMap_cons, List.length_append, Nat.add_assoc]

end BufferMkvWriter

/-- A `std::ostringstream`: its characters and the position of the next one. -/
structure Ostringstream where
  str : Bytes := []
  pptr : Nat := 0

namespace Ostringstream

def write (os : Ostringstream) (s : Bytes) : Ostringstream where
  str := Memory.overwrite os.str os.pptr s
  pptr := os.pptr + s.length

/-- `pubseekoff(0, ss.cur, ss.out)` only tells the position. -/
def tell (os : Ostringstream) : Nat × Ostringstream := (os.pptr, os)

/-- `pubseekoff(0, ss.end, ss.out)`. -/
def seekEnd (os : Ostringstream) : Nat × Ostringstream :=
  (os.str.length, { os with pptr := os.str.length })

/-- `pubseekpos(pos, ss.out)`. -/
def seekPos (os : Ostringstream) (pos : Nat) : Ostringstream := { os with pptr := pos }

theorem foldl_write (blocks : List Bytes) (s : Bytes) :
    blocks.foldl write ⟨s, s.length⟩ = ⟨s ++ blocks.flatten, (s ++ blocks.flatten).length⟩ := by
  induction blocks generalizing s with
  | nil => simp
  | cons b blocks ih =>
    have appended : Memory.overwrite s s.length b = s ++ b := by
      simp [Memory.overwrite]
    have wrote : write ⟨s, s.length⟩ b = ⟨s ++ b, (s ++ b).length⟩ := by
      simp only [write, appended, List.length_append]
    rw [List.foldl_cons, wrote, ih, List.flatten_cons, List.append_assoc]

theorem str_foldl_write (blocks : List Bytes) : (blocks.foldl write {}).str = blocks.flatten :=
  congrArg str (foldl_write blocks [])

end Ostringstream

/-- `Stream::size_of_stream`: the position of the end, and the stream as it was. -/
def sizeOfStream (ss : Ostringstream) : Nat × Ostringstream :=
  let (original, ss) := ss.tell
  let (size, ss) := ss.seekEnd
  (size, ss.seekPos original)

theorem sizeOfStream_written (blocks : List Bytes) :
    sizeOfStream (blocks.foldl Ostringstream.write {}) =
      (blocks.flatten.length, blocks.foldl Ostringstream.write {}) := by
  have written := Ostringstream.foldl_write blocks []
  rw [List.nil_append] at written
  have start : ({} : Ostringstream) = ⟨[], ([] : Bytes).length⟩ := rfl
  rw [start, written]
  rfl

variable {c : Codec}

namespace Stream

theorem Steps.emptied {s t : Stream c} {op : Op} {reply : Reply} (steps : Steps s op t reply)
    (before : s.encoder.done = true → s.encoder.mkvWriter.buf = [])
    (closed : t.encoder.done = true) : t.encoder.mkvWriter.buf = [] := by
  by_cases closed_before : s.encoder.done = true
  · rw [steps.idle closed_before]
    exact before closed_before
  · have opened : s.encoder.done = false := by simpa using closed_before
    cases steps with
    | appends => exact absurd closed closed_before
    | returns _ acts _ finishes =>
      have active := acts.done
      cases finishes with
      | stays => exact absurd (active.symm.trans closed) closed_before
      | closes _ finalised =>
        exact finalised.drained (active.trans opened)
    | throws _ acts fails =>
      have active := acts.done
      cases fails <;> exact absurd (active.symm.trans closed) closed_before

/-- Where the written bytes are: passed on in the answers, or still in the writer. -/
structure Passed (replies : List Reply) (s : Stream c) : Prop where
  ready : s.Ready
  emptied : s.encoder.done = true → s.encoder.mkvWriter.buf = []
  dumped : (∀ e, Reply.threw e ∉ replies) →
    s.encoder.mkvWriter.dumped = (replies.map Reply.data).flatten

theorem Passed.steps {replies : List Reply} {s t : Stream c} {op : Op} {reply : Reply}
    (passed : Passed replies s) (steps : Steps s op t reply) : Passed (replies ++ [reply]) t where
  ready := steps.ready passed.ready
  emptied := steps.emptied passed.emptied
  dumped returns := by
    obtain ⟨earlier, last⟩ := none_threw_concat returns
    rw [steps.dumped last, passed.dumped earlier, List.map_append, List.flatten_append]
    simp

theorem run_passed {bitrate : Nat} {ops : List Op} {s : Stream c} {replies : List Reply}
    (reached : run (create c bitrate) ops = some (s, replies)) : Passed replies s := by
  have active : (create c bitrate).encoder.done = false := rfl
  have initial : Passed [] (create c bitrate) :=
    ⟨create_ready bitrate, fun closed => absurd (active.symm.trans closed) (by decide),
      fun _ => EncoderImpl.create_dumped c 48000 2⟩
  obtain ⟨t, _, same, passed⟩ := Run.run_induct (fun _ replies (t : Stream c) => Passed replies t)
    (fun _ _ => True) initial
    (fun _ _ _ op _ passed _ =>
      let ⟨t, reply, stepped, steps⟩ := step_spec passed.ready op
      ⟨t, reply, stepped, passed.steps steps⟩)
    ops (Run.along_of_forall fun _ _ => trivial)
  cases reached.symm.trans same
  exact passed

/-- No encoded byte is lost: what the muxer has written is what the answers have passed on and
what the writer still has, which is nothing once the encoder is finalised, and from then on
nothing is written or passed on. `Position` goes by all that has been written, and an answer
declares the size that its data has in the string stream. -/
theorem payloads_are_written (bitrate : Nat) (floatText : Rat → Bytes) (ops : List Op)
    (s : Stream c) (replies : List Reply)
    (reached : run (create c bitrate) ops = some (s, replies))
    (returns : ∀ e, Reply.threw e ∉ replies) :
    (replies.map Reply.data).flatten ++ s.encoder.mkvWriter.buf = written s.encoder.calls ∧
    (s.encoder.done = true →
      (replies.map Reply.data).flatten = written s.encoder.calls ∧
      s.encoder.mkvWriter.buf = [] ∧
      ∀ op t reply, step s op = some (t, reply) → t.encoder = s.encoder ∧ reply.data = []) ∧
    s.encoder.mkvWriter.position = (written s.encoder.calls).length ∧
    (∀ calls : List WriterOp, (calls.foldl BufferMkvWriter.apply {}).position =
      (calls.flatMap WriterOp.bytes).length) ∧
    (∀ metadata data, Reply.segments metadata data ∈ replies →
      ∀ blocks : List Bytes, blocks.flatten = data →
        (Reply.segments metadata data).body floatText =
          segment (str "meta") (smeta floatText metadata) ++ str "data" ++
            Memory.leBytes (sizeOfStream (blocks.foldl Ostringstream.write {})).1 ++
            (sizeOfStream (blocks.foldl Ostringstream.write {})).2.str ∧
        (data.length < 2 ^ 32 → Memory.leNat (Memory.leBytes
          (sizeOfStream (blocks.foldl Ostringstream.write {})).1) = data.length)) := by
  obtain ⟨ready, emptied, dumped⟩ := run_passed reached
  have all := ready.valid.accounted
  rw [dumped returns] at all
  refine ⟨all, fun closed => ?_, ready.valid.position, fun calls => ?_, ?_⟩
  · rw [emptied closed, List.append_nil] at all
    refine ⟨all, emptied closed, fun op t reply stepped => ?_⟩
    obtain ⟨t', reply', same, steps⟩ := step_spec ready op
    cases stepped.symm.trans same
    have idle := steps.idle closed
    refine ⟨idle, ?_⟩
    by_cases threw : ∃ e, reply = .threw e
    · obtain ⟨e, rfl⟩ := threw
      rfl
    · have dumps := steps.dumped fun e same => threw ⟨e, same⟩
      rw [idle] at dumps
      exact List.append_cancel_left (dumps.symm.trans (List.append_nil _).symm)
  · rw [BufferMkvWriter.position_applies]
    exact Nat.zero_add _
  · rintro metadata data _ blocks rfl
    rw [sizeOfStream_written blocks, Ostringstream.str_foldl_write]
    refine ⟨?_, fun small => Memory.leNat_leBytes_of_lt small⟩
    simp only [Reply.body, segments, segment, List.append_assoc]

theorem payloads_are_written_one_file :
    ∃ s replies, run (create Codec.plain 196000) (oneFile ++ [.advance (.ofFiles twoSamples) 3]) =
        some (s, replies) ∧ (replies.map Reply.data).flatten = written s.encoder.calls := by
  have evaluated : (run (create Codec.plain 196000)
      (oneFile ++ [.advance (.ofFiles twoSamples) 3])).map (fun r =>
        r.1.encoder.done && r.2.all Reply.returned) = some true := by
    decide +kernel
  obtain ⟨s, replies, reached, closed, returns⟩ := run_returned evaluated
  obtain ⟨_, finalised, _⟩ := payloads_are_written 196000 minusOne _ s replies reached returns
  exact ⟨s, replies, reached, (finalised closed).1⟩

end Stream

end HttpAudioServer

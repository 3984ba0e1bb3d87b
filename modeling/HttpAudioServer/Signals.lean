import HttpAudioServer.Process

/-! Where signals go. The pid becomes 0 when the child has been reaped, and `kill` with pid 0
means the whole process group of the server. -/
namespace HttpAudioServer

/-- A `kill` goes to the child, and the child has not been reaped before. -/
def SysCall.ToChild (child : Int) (before : List SysCall) : SysCall → Prop
  | .waitpid _ _ _ => True
  | .kill pid _ => pid = child ∧ 0 < pid ∧ ∀ call ∈ before, call.reaps = false

def ProcessOp.reaps : ProcessOp → Bool
  | .running answer | .wait answer => answer.reaps
  | .exitcode | .signal _ _ => false

/-- A call of `signal` comes before any call that is told that the child is gone. -/
def ProcessOp.InTime (before : List ProcessOp) : ProcessOp → Prop
  | .signal _ _ => ∀ op ∈ before, op.reaps = false
  | .running _ | .wait _ | .exitcode => True

namespace ProcessImpl

/-- Once the child has been reaped, `signal` makes no system call and returns false. -/
def Refuses (p : ProcessImpl) (op : ProcessOp) : Prop :=
  (∃ call ∈ p.calls, call.reaps = true) → ∀ signal sent, op = .signal signal sent →
    p.step op = some (p, .bool false)

/-- The pid tells whether the child has been reaped, and so do the calls made so far. -/
structure Tracks (child : Int) (ops : List ProcessOp) (p : ProcessImpl) : Prop where
  alive : (∀ op ∈ ops, op.reaps = false) → p.pid = child ∧ ∀ call ∈ p.calls, call.reaps = false
  gone : (∃ op ∈ ops, op.reaps = true) → p.pid = 0 ∧ ∃ call ∈ p.calls, call.reaps = true
  toChild : Run.Each (SysCall.ToChild child) p.calls ↔ Run.Each ProcessOp.InTime ops

theorem tracks_start (child : Int) : Tracks child [] (start child) where
  alive _ := ⟨rfl, by simp [start]⟩
  gone := by simp
  toChild := ⟨fun _ => Run.each_nil, fun _ => Run.each_nil⟩

theorem updateStatus_of_gone {p : ProcessImpl} (gone : p.pid = 0) (block : Bool)
    (answer : WaitAnswer) : p.updateStatus block answer = (p, .ok false) := if_pos gone

theorem updateStatus_of_alive {p : ProcessImpl} (alive : p.pid ≠ 0) (block : Bool)
    (answer : WaitAnswer) :
    (p.updateStatus block answer).1.calls = p.calls ++ [.waitpid p.pid block answer] ∧
    (p.updateStatus block answer).1.pid = if answer.reaps then 0 else p.pid := by
  cases answer <;> simp [updateStatus, alive, WaitAnswer.reaps]

theorem reaped_concat {ops : List ProcessOp} {op : ProcessOp}
    (reaped : ∃ op' ∈ ops ++ [op], op'.reaps = true) :
    (∃ op' ∈ ops, op'.reaps = true) ∨ op.reaps = true := by
  obtain ⟨op', member, reaps⟩ := reaped
  rcases List.mem_append.mp member with old | new
  · exact .inl ⟨op', old, reaps⟩
  · cases List.mem_singleton.mp new
    exact .inr reaps

theorem Tracks.exitcode {child : Int} {ops : List ProcessOp} {p : ProcessImpl}
    (tracks : Tracks child ops p) : Tracks child (ops ++ [.exitcode]) p := by
  refine ⟨fun never => ?_, fun reaped => ?_, ?_⟩
  · exact tracks.alive fun op member => never op (List.mem_append_left _ member)
  · rcases reaped_concat reaped with earlier | last
    · exact tracks.gone earlier
    · contradiction
  · exact tracks.toChild.trans (Run.each_concat.trans (and_iff_left trivial)).symm

section Steps

variable {child : Int} (positive : 0 < child) {ops : List ProcessOp} {p : ProcessImpl}
  (tracks : Tracks child ops p)

include positive tracks

theorem Tracks.gone_iff : p.pid = 0 ↔ ∃ op ∈ ops, op.reaps = true := by
  constructor
  · intro gone
    by_contra alive
    simp only [not_exists, not_and, Bool.not_eq_true] at alive
    have same := (tracks.alive alive).1
    omega
  · exact fun gone => (tracks.gone gone).1

theorem Tracks.asks {op : ProcessOp} {answer : WaitAnswer} (reaps : op.reaps = answer.reaps)
    (waits : ∀ before, op.InTime before) (block : Bool) :
    Tracks child (ops ++ [op]) (p.updateStatus block answer).1 := by
  have inTime : Run.Each ProcessOp.InTime (ops ++ [op]) ↔ Run.Each ProcessOp.InTime ops :=
    Run.each_concat.trans (and_iff_left (waits ops))
  by_cases gone : p.pid = 0
  · have earlier := (tracks.gone_iff positive).mp gone
    rw [updateStatus_of_gone gone]
    refine ⟨fun never => ?_, fun _ => tracks.gone earlier, tracks.toChild.trans inTime.symm⟩
    obtain ⟨op', member, reaped⟩ := earlier
    rw [never op' (List.mem_append_left _ member)] at reaped
    contradiction
  · have never : ∀ op' ∈ ops, op'.reaps = false := by
      intro op' member
      by_contra reaped
      exact gone ((tracks.gone_iff positive).mpr ⟨op', member, by simpa using reaped⟩)
    obtain ⟨same, clean⟩ := tracks.alive never
    obtain ⟨calls, pid⟩ := updateStatus_of_alive gone block answer
    have toChild : Run.Each (SysCall.ToChild child) (p.updateStatus block answer).1.calls ↔
        Run.Each (SysCall.ToChild child) p.calls := by
      rw [calls, Run.each_concat]
      exact and_iff_left trivial
    refine ⟨fun never' => ?_, fun reaped => ?_, toChild.trans (tracks.toChild.trans inTime.symm)⟩
    · have lives : answer.reaps = false := reaps ▸ never' op (by simp)
      refine ⟨by simp [pid, lives, same], ?_⟩
      rw [calls]
      exact List.forall_mem_append.mpr ⟨clean, List.forall_mem_singleton.mpr lives⟩
    · have dies : answer.reaps = true := by
        rcases reaped_concat reaped with ⟨op', old, reaped⟩ | last
        · rw [never op' old] at reaped
          contradiction
        · exact reaps ▸ last
      refine ⟨by simp [pid, dies], .waitpid p.pid block answer, ?_, dies⟩
      rw [calls]
      simp

theorem Tracks.signals (signal : Int) (sent : Bool) :
    Tracks child (ops ++ [.signal signal sent]) (p.signal signal sent).1 := by
  refine ⟨fun never => ?_, fun reaped => ?_, ?_⟩
  · obtain ⟨same, clean⟩ := tracks.alive fun op member => never op (List.mem_append_left _ member)
    exact ⟨same, List.forall_mem_append.mpr ⟨clean, List.forall_mem_singleton.mpr rfl⟩⟩
  · rcases reaped_concat reaped with earlier | last
    · obtain ⟨gone, call, member, reaped⟩ := tracks.gone earlier
      exact ⟨gone, call, List.mem_append_left _ member, reaped⟩
    · contradiction
  · have last : SysCall.ToChild child p.calls (.kill p.pid signal) ↔
        ProcessOp.InTime ops (.signal signal sent) := by
      constructor
      · rintro ⟨_, alive, _⟩ op member
        by_contra reaped
        have gone := (tracks.gone_iff positive).mpr ⟨op, member, by simpa using reaped⟩
        omega
      · intro never
        obtain ⟨same, clean⟩ := tracks.alive never
        exact ⟨same, same ▸ positive, clean⟩
    exact Run.each_concat.trans ((and_congr tracks.toChild last).trans Run.each_concat.symm)

theorem Tracks.step (op : ProcessOp) :
    ∃ q r, p.step op = some (q, r) ∧ Tracks child (ops ++ [op]) q := by
  cases op with
  | running answer =>
    have asked : Tracks child (ops ++ [.running answer]) (p.running answer).1 :=
      tracks.asks positive rfl (fun _ => by trivial) false
    cases status : p.running answer with
    | mk q res =>
      rw [status] at asked
      cases res with
      | ok b => exact ⟨q, .bool b, by simp only [ProcessImpl.step, status], asked⟩
      | error e => exact ⟨q, .threw e, by simp only [ProcessImpl.step, status], asked⟩
  | wait answer =>
    have asked : Tracks child (ops ++ [.wait answer]) (p.updateStatus true answer).1 :=
      tracks.asks positive rfl (fun _ => by trivial) true
    cases status : p.updateStatus true answer with
    | mk q res =>
      rw [status] at asked
      cases res with
      | ok _ =>
        exact ⟨q, .int q.exitcode, by simp only [ProcessImpl.step, ProcessImpl.wait, status], asked⟩
      | error e =>
        exact ⟨q, .threw e, by simp only [ProcessImpl.step, ProcessImpl.wait, status], asked⟩
  | exitcode => exact ⟨p, _, rfl, tracks.exitcode⟩
  | signal signal sent => exact ⟨_, _, rfl, tracks.signals positive signal sent⟩

end Steps

theorem run_tracks {child : Int} (positive : 0 < child) (ops : List ProcessOp) :
    ∃ p rs, (start child).run ops = some (p, rs) ∧ Tracks child ops p :=
  Run.run_induct (fun ops _ p => Tracks child ops p) (fun _ _ => True) (tracks_start child)
    (fun _ _ _ op _ tracks _ => tracks.step positive op) ops
    (Run.along_of_forall fun _ _ => trivial)

theorem Tracks.refuses {child : Int} {ops : List ProcessOp} {p : ProcessImpl} {op : ProcessOp}
    (tracks : Tracks child ops p) (inTime : op.InTime ops) : p.Refuses op := by
  rintro ⟨call, member, reaped⟩ signal sent rfl
  rw [(tracks.alive inTime).2 call member] at reaped
  contradiction

/-- Signals reach only the child, in a run of calls from `fork` on. -/
def Safe (child : Int) (ops : List ProcessOp) : Prop :=
  Run.Along step Refuses (start child) ops ∧
    ∃ p rs, (start child).run ops = some (p, rs) ∧ Run.Each (SysCall.ToChild child) p.calls

theorem safe_iff {child : Int} (positive : 0 < child) (ops : List ProcessOp) :
    Safe child ops ↔ Run.Each ProcessOp.InTime ops := by
  obtain ⟨p, rs, ran, tracks⟩ := run_tracks positive ops
  constructor
  · rintro ⟨_, q, us, ran', toChild⟩
    cases ran.symm.trans ran'
    exact tracks.toChild.mp toChild
  · intro inTime
    refine ⟨fun before op after q us split reached => ?_, p, rs, ran, tracks.toChild.mpr inTime⟩
    obtain ⟨q', _, same, tracks'⟩ := run_tracks positive before
    cases reached.symm.trans same
    exact tracks'.refuses (inTime before op after split)

theorem wait_fst (p : ProcessImpl) (answer : WaitAnswer) :
    (p.wait answer).1 = (p.updateStatus true answer).1 := by
  unfold wait
  split <;> simp only [*]

end ProcessImpl

theorem Decoder.interrupt_ends (dec : Decoder) (left : Bytes) :
    ∃ bytes, (dec.interrupt left).stdout = .finite bytes := by
  by_cases good : dec.good = true
  · exact ⟨left, by simp [interrupt, good]⟩
  · exact ⟨[], by simpa [interrupt, good] using dec.eof (by simpa using good)⟩

namespace DecoderImpl

theorem drain_done {input : Decoder} {bytes : Bytes} (ends : input.stdout = .finite bytes) :
    ∃ l, drain input = .done l := by
  have round : ∀ l : Draining, ∀ b : Bytes, l.input.stdout = .finite b →
      (drainRound l).input.stdout = .finite (b.drop 4096) ∧
      (drainRound l).nBytesRead = min 4096 b.length := by
    intro l b stdout
    obtain ⟨next, read, rest, _⟩ := l.input.read_spec 4096 []
    simp only [drainRound, read, rest, stdout, Output.take, Output.drop, List.length_take]
    trivial
  have loop : (drain input).Ends (fun l => (∃ b : Bytes, l.input.stdout = .finite b) ∧
      decide (0 < l.nBytesRead) = false) (fun _ _ => False) := by
    apply Imperative.doWhile_ends (fun l : Draining => ∃ b : Bytes, l.input.stdout = .finite b)
      fun l : Draining => l.input.stdout.bytes.length + min 1 l.nBytesRead
    · intro l _ go
      have more : 0 < l.nBytesRead := by simpa using go
      omega
    · rintro l ⟨b, stdout⟩ go
      have more : 0 < l.nBytesRead := by simpa using go
      obtain ⟨rest, count⟩ := round l b stdout
      refine ⟨⟨_, rest⟩, ?_⟩
      simp only [rest, stdout, count, Output.bytes, List.length_drop]
      omega
    · obtain ⟨rest, count⟩ := round ⟨input, 0⟩ bytes ends
      refine ⟨⟨_, rest⟩, ?_⟩
      simp only [rest, ends, count, Output.bytes, List.length_drop]
      omega
  obtain ⟨l, done, _⟩ := loop.done
  exact ⟨l, done⟩

theorem wait_process (d : DecoderImpl) (left : Bytes) (sent : Bool) (answer : WaitAnswer) :
    ∃ input res, d.wait left sent answer =
      some (⟨((d.process.signal 2 sent).1.updateStatus true answer).1, input⟩, res) := by
  obtain ⟨bytes, ends⟩ := d.input.interrupt_ends left
  obtain ⟨l, done⟩ := drain_done ends
  exact ⟨l.input, ((d.process.signal 2 sent).1.wait answer).2, by
    simp [wait, done, ← ProcessImpl.wait_fst]⟩

end DecoderImpl

def DecoderOp.reaps : DecoderOp → Bool
  | .read _ => false
  | .wait _ _ answer => answer.reaps

/-- A call of `wait` comes before any other one that is told that the child is gone. -/
def DecoderOp.InTime (before : List DecoderOp) : DecoderOp → Prop
  | .read _ => True
  | .wait _ _ _ => ∀ op ∈ before, op.reaps = false

namespace DecoderImpl

/-- A run of a decoder is for its process a run of calls, which are in time if those of the
decoder are. -/
def Tracks (child : Int) (ops : List DecoderOp) (d : DecoderImpl) : Prop :=
  ∃ calls, ProcessImpl.Tracks child calls d.process ∧
    (Run.Each ProcessOp.InTime calls ↔ Run.Each DecoderOp.InTime ops) ∧
    ((∀ op ∈ calls, op.reaps = false) ↔ ∀ op ∈ ops, op.reaps = false)

theorem tracks_start (child : Int) (output : Output) : Tracks child [] (start child output) :=
  ⟨[], ProcessImpl.tracks_start child, ⟨fun _ => Run.each_nil, fun _ => Run.each_nil⟩, by simp⟩

section Steps

variable {child : Int} (positive : 0 < child) {ops : List DecoderOp} {d : DecoderImpl}
  (tracks : Tracks child ops d)

include positive tracks

theorem Tracks.waits (left : Bytes) (sent : Bool) (answer : WaitAnswer) (input : Decoder) :
    Tracks child (ops ++ [.wait left sent answer])
      ⟨((d.process.signal 2 sent).1.updateStatus true answer).1, input⟩ := by
  obtain ⟨calls, process, inTime, quiet⟩ := tracks
  have asked : ProcessImpl.Tracks child (calls ++ [.signal 2 sent] ++ [.wait answer])
      ((d.process.signal 2 sent).1.updateStatus true answer).1 :=
    (process.signals positive 2 sent).asks positive rfl (fun _ => by trivial) true
  refine ⟨_, asked, ?_, ?_⟩
  · have anyTime : Run.Each ProcessOp.InTime (calls ++ [.signal 2 sent] ++ [.wait answer]) ↔
        Run.Each ProcessOp.InTime (calls ++ [.signal 2 sent]) :=
      Run.each_concat.trans (and_iff_left trivial)
    have waited : Run.Each DecoderOp.InTime (ops ++ [.wait left sent answer]) ↔
        Run.Each DecoderOp.InTime ops ∧ ∀ op ∈ ops, op.reaps = false := Run.each_concat
    rw [anyTime, Run.each_concat, waited, inTime]
    exact and_congr_right fun _ => quiet
  · simp only [List.forall_mem_append, List.forall_mem_singleton, quiet]
    exact ⟨fun h => ⟨h.1.1, h.2⟩, fun h => ⟨⟨h.1, rfl⟩, h.2⟩⟩

theorem Tracks.step (op : DecoderOp) :
    ∃ d' r, d.step op = some (d', r) ∧ Tracks child (ops ++ [op]) d' := by
  cases op with
  | read nBytes =>
    obtain ⟨calls, process, inTime, quiet⟩ := tracks
    refine ⟨_, _, rfl, calls, process, ?_, ?_⟩
    · exact inTime.trans (Run.each_concat.trans (and_iff_left trivial)).symm
    · simpa only [List.forall_mem_append, List.forall_mem_singleton, DecoderOp.reaps, and_true]
        using quiet
  | wait left sent answer =>
    obtain ⟨input, res, waited⟩ := d.wait_process left sent answer
    exact ⟨_, res, waited, tracks.waits positive left sent answer input⟩

theorem Tracks.finish (last : DecoderEnd) :
    ∃ d', d.finish last = some d' ∧
      (Run.Each (SysCall.ToChild child) d'.process.calls ↔
        Run.Each DecoderOp.InTime ops ∧ ∀ op ∈ ops, op.reaps = false) := by
  cases last with
  | destroy left sent answer answer' =>
    obtain ⟨input, res, waited⟩ := d.wait_process left sent answer
    obtain ⟨calls, process, inTime, quiet⟩ := tracks.waits positive left sent answer input
    have law : Run.Each ProcessOp.InTime calls ↔
        Run.Each DecoderOp.InTime ops ∧ ∀ op ∈ ops, op.reaps = false :=
      inTime.trans Run.each_concat
    cases res with
    | ok _ =>
      have again : ProcessImpl.Tracks child (calls ++ [.wait answer'])
          (((d.process.signal 2 sent).1.updateStatus true answer).1.updateStatus true answer').1 :=
        process.asks positive rfl (fun _ => by trivial) true
      rw [← ProcessImpl.wait_fst] at again
      refine ⟨⟨(((d.process.signal 2 sent).1.updateStatus true answer).1.wait answer').1, input⟩,
        by simp [DecoderImpl.finish, waited], ?_⟩
      exact again.toChild.trans ((Run.each_concat.trans (and_iff_left trivial)).trans law)
    | error e =>
      refine ⟨⟨((d.process.signal 2 sent).1.updateStatus true answer).1, input⟩,
        by simp [DecoderImpl.finish, waited], ?_⟩
      exact process.toChild.trans law
  | hang sent =>
    obtain ⟨calls, process, inTime, quiet⟩ := tracks
    refine ⟨_, rfl, ?_⟩
    exact (process.signals positive 2 sent).toChild.trans
      (Run.each_concat.trans (and_congr inTime quiet))

end Steps

theorem run_tracks {child : Int} (positive : 0 < child) (output : Output) (ops : List DecoderOp) :
    ∃ d rs, (start child output).run ops = some (d, rs) ∧ Tracks child ops d :=
  Run.run_induct (fun ops _ d => Tracks child ops d) (fun _ _ => True) (tracks_start child output)
    (fun _ _ _ op _ tracks _ => tracks.step positive op) ops
    (Run.along_of_forall fun _ _ => trivial)

/-- Signals reach only the child, in a run of calls on a new decoder, to its end if it has one. -/
def Safe (child : Int) (output : Output) (ops : List DecoderOp) (last : Option DecoderEnd) : Prop :=
  ∃ d rs d', (start child output).run ops = some (d, rs) ∧ last.elim (some d) d.finish = some d' ∧
    Run.Each (SysCall.ToChild child) d'.process.calls

theorem safe_iff {child : Int} (positive : 0 < child) (output : Output) (ops : List DecoderOp)
    (last : Option DecoderEnd) :
    Safe child output ops last ↔ Run.Each DecoderOp.InTime ops ∧
      (last.isSome = true → ∀ op ∈ ops, op.reaps = false) := by
  obtain ⟨d, rs, ran, tracks⟩ := run_tracks positive output ops
  have made : ∃ d', last.elim (some d) d.finish = some d' ∧
      (Run.Each (SysCall.ToChild child) d'.process.calls ↔ Run.Each DecoderOp.InTime ops ∧
        (last.isSome = true → ∀ op ∈ ops, op.reaps = false)) := by
    cases last with
    | none =>
      obtain ⟨calls, process, inTime, _⟩ := tracks
      exact ⟨d, rfl, (process.toChild.trans inTime).trans (and_iff_left (by simp)).symm⟩
    | some last => simpa using tracks.finish positive last
  obtain ⟨d', ended, law⟩ := made
  constructor
  · rintro ⟨d₁, rs₁, d₂, ran₁, ended₁, toChild⟩
    cases ran.symm.trans ran₁
    cases ended.symm.trans ended₁
    exact law.mp toChild
  · exact fun inTime => ⟨d, rs, d', ran, ended, law.mpr inTime⟩

end DecoderImpl

/-- Signals reach only the child unless one is sent after a call that has reaped it: `signal`
on the process, or `wait` or the destruction of a decoder after `wait`. -/
theorem signals_reach_child_iff (child : Int) (forked : 0 < child) :
    (∀ ops : List ProcessOp,
      ProcessImpl.Safe child ops ↔ Run.Each ProcessOp.InTime ops) ∧
    ∀ (output : Output) (ops : List DecoderOp) (last : Option DecoderEnd),
      DecoderImpl.Safe child output ops last ↔ Run.Each DecoderOp.InTime ops ∧
        (last.isSome = true → ∀ op ∈ ops, op.reaps = false) :=
  ⟨ProcessImpl.safe_iff forked, DecoderImpl.safe_iff forked⟩

/-- A process that is sent a signal and then reaped, and one that is reaped and then sent a
signal; a decoder that is waited for, and one that is destroyed after it. -/
theorem signals_reach_child_iff_reaped :
    ProcessImpl.Safe 4711 [.signal 2 true, .wait (.exited 0)] ∧
    ¬ ProcessImpl.Safe 4711 [.wait (.exited 0), .signal 2 true] ∧
    DecoderImpl.Safe 4711 (.finite [1, 2]) [.wait [3] true (.exited 0)] none ∧
    ¬ DecoderImpl.Safe 4711 (.finite [1, 2]) [.wait [3] true (.exited 0)]
      (some (.destroy [] true .failed .failed)) := by
  obtain ⟨process, decoder⟩ := signals_reach_child_iff 4711 (by decide)
  have first : Run.Each ProcessOp.InTime ([] ++ [.signal 2 true]) :=
    Run.each_concat.mpr ⟨Run.each_nil, by simp [ProcessOp.InTime]⟩
  have waited : Run.Each DecoderOp.InTime ([] ++ [.wait [3] true (.exited 0)]) :=
    Run.each_concat.mpr ⟨Run.each_nil, by simp [DecoderOp.InTime]⟩
  refine ⟨(process _).mpr ?_, mt (process _).mp ?_, (decoder _ _ _).mpr ⟨waited, by simp⟩,
    mt (decoder _ _ _).mp ?_⟩
  · change Run.Each ProcessOp.InTime ([.signal 2 true] ++ [.wait (.exited 0)])
    exact Run.each_concat.mpr ⟨first, trivial⟩
  · intro inTime
    exact absurd (inTime [.wait (.exited 0)] _ [] rfl _ (List.mem_singleton_self _)) (by decide)
  · rintro ⟨_, never⟩
    exact absurd (never rfl _ (List.mem_singleton_self _)) (by decide)

theorem signal_after_wait_kills_group :
    ((ProcessImpl.start 4711).run [.wait (.exited 0), .signal 15 true]).map
        (fun r => (r.1.calls, r.2)) =
      some ([.waitpid 4711 true (.exited 0), .kill 0 15], [.int 0, .bool true]) ∧
    ((DecoderImpl.start 4711 (.finite [])).run [.wait [] true (.exited 0)]).bind
        (fun r => (r.1.finish (.destroy [] true .failed .failed)).map fun d => d.process.calls) =
      some [.kill 4711 2, .waitpid 4711 true (.exited 0), .kill 0 2] := by
  decide

end HttpAudioServer

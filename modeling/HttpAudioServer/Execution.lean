import HttpAudioServer.Library.Schedule
import HttpAudioServer.Pipe
import HttpAudioServer.Process
import Mathlib.Logic.Function.Basic

/-! `Process::exec`: the child, and the main thread and the three other threads of the parent, which
meet in the pipes. The signal for a broken pipe is ignored, as it is once `mg_mgr_init` has run. -/
namespace HttpAudioServer

/-- What a program does next. It waits until it can read or write, and keeps its ends of the
pipes until it exits. -/
inductive Act (κ : Type) where
  | compute (next : κ)
  | read (next : Option UInt8 → κ)
  | write (toStderr : Bool) (ch : UInt8) (next : κ)
  | exit (answer : WaitAnswer)

/-- What `exitcode` is after this answer. -/
def WaitAnswer.exitcode : WaitAnswer → Int
  | .exited exitstatus => exitstatus
  | .signaled termsig => -termsig
  | .failed | .unchanged | .otherChange => 0

theorem ProcessImpl.wait_alive {q : ProcessImpl} (alive : q.pid ≠ 0) {answer : WaitAnswer}
    (reaps : answer.reaps = true) : ∃ q', q.wait answer = (q', .ok answer.exitcode) := by
  cases answer <;> simp_all [WaitAnswer.reaps, ProcessImpl.wait, ProcessImpl.updateStatus,
    WaitAnswer.exitcode]

/-- A program. `answer` is what is said of it when it is waited for. -/
structure Program (κ : Type) where
  act : κ → Act κ
  exits : ∀ k answer, act k = .exit answer → answer.reaps = true

/-- The program on its own: what it has not read of its input, and what it has written. -/
structure Alone (κ : Type) where
  state : κ
  input : Bytes
  output : Bool → Bytes := fun _ => []

namespace Alone

variable {κ : Type}

def step (p : Program κ) (a : Alone κ) : Option (Alone κ) :=
  match p.act a.state with
  | .compute next => some { a with state := next }
  | .read next => some { a with state := next a.input.head?, input := a.input.tail }
  | .write toStderr ch next => some {
      a with
      state := next
      output := Function.update a.output toStderr (a.output toStderr ++ [ch]) }
  | .exit _ => none

inductive Steps (p : Program κ) : Nat → Alone κ → Alone κ → Prop where
  | refl (a : Alone κ) : Steps p 0 a a
  | next {n : Nat} {a b c : Alone κ} (first : a.step p = some b) (later : Steps p n b c) :
      Steps p (n + 1) a c

def EndsIn (p : Program κ) (n : Nat) (a b : Alone κ) (answer : WaitAnswer) : Prop :=
  Steps p n a b ∧ p.act b.state = .exit answer

variable {p : Program κ}

theorem Steps.snoc {n : Nat} {a b c : Alone κ} (steps : Steps p n a b) (last : b.step p = some c) :
    Steps p (n + 1) a c := by
  induction steps with
  | refl a => exact .next last (.refl c)
  | next first _ ih => exact .next first (ih last)

theorem step_exit {a : Alone κ} {answer : WaitAnswer} (exits : p.act a.state = .exit answer) :
    a.step p = none := by
  simp [step, exits]

end Alone

/-- The standard input of the child, as a stream of the parent: `pending` is what is passed to the
operating system but not yet in the pipe. A flush returns when nothing is pending. -/
structure ChildStdin where
  pending : Bytes := []
  good : Bool := true

def childStdin : Ostream ChildStdin where
  good := ChildStdin.good
  write s o := { o with pending := o.pending ++ s }
  flush o := o

def stringstream : Ostream Bytes where
  good _ := true
  write s o := o ++ s
  flush o := o

/-- `generic_writer` copies, writes what is left in the buffer, and closes the pipe. -/
inductive WriterPhase where
  | copies
  | flushes
  | closed
deriving DecidableEq, Repr

/-- `proc.wait()`, and a `join` after the other. -/
inductive MainPhase where
  | waits
  | joins (thread : Nat) (res : Int)
  | returned (res : Int)
deriving DecidableEq, Repr

inductive Child (κ : Type) where
  | runs (k : κ)
  | gone (answer : WaitAnswer)

/-- The source of a reader is in the pipe. `pipes true` is the standard error of the child. -/
structure Exec (κ : Type) where
  writer : Pipe ChildStdin
  phase : WriterPhase
  stdin : Bytes
  child : Child κ
  pipes : Bool → Bytes
  readers : Bool → Pipe Bytes
  finished : Bool → Bool
  main : MainPhase
  process : ProcessImpl

/-- How much the threads still have to do when the child does nothing more. -/
def WriterPhase.weight : WriterPhase → Nat
  | .copies => 2
  | .flushes => 1
  | .closed => 0

def MainPhase.weight : MainPhase → Nat
  | .waits => 4
  | .joins thread _ => 3 - thread
  | .returned _ => 0

def Child.weight {κ : Type} : Child κ → Nat
  | .runs _ => 1
  | .gone _ => 0

namespace Exec

variable {κ : Type}

def start (pid : Int) (k : κ) (input : Bytes) : Exec κ where
  writer := ⟨input, true, [], {}⟩
  phase := .copies
  stdin := []
  child := .runs k
  pipes _ := []
  readers _ := ⟨[], true, [], []⟩
  finished _ := false
  main := .waits
  process := .start pid

def leave {ω : Type} (out : Ostream ω) (l : Pipe ω) : Pipe ω :=
  if 0 < l.buf.length ∧ out.good l.output = true then l.send out else l

def threadDone (s : Exec κ) : Nat → Prop
  | 0 => s.phase = .closed
  | 1 => s.finished false = true
  | _ => s.finished true = true

/-- The steps of the child and of the threads. The pipes have room for `capacity` bytes. -/
inductive Step (p : Program κ) (capacity : Nat) : Exec κ → Exec κ → Prop where
  | copy {s : Exec κ} (phase : s.phase = .copies) (flushed : s.writer.output.pending = [])
      (go : (s.writer.good && s.writer.output.good) = true) :
      Step p capacity s { s with writer := s.writer.round childStdin }
  | leave {s : Exec κ} (phase : s.phase = .copies) (flushed : s.writer.output.pending = [])
      (stop : (s.writer.good && s.writer.output.good) = false) :
      Step p capacity s { s with writer := leave childStdin s.writer, phase := .flushes }
  | close {s : Exec κ} (phase : s.phase = .flushes) (flushed : s.writer.output.pending = []) :
      Step p capacity s { s with phase := .closed }
  | send {s : Exec κ} {ch : UInt8} {rest : Bytes} {k : κ} (runs : s.child = .runs k)
      (pending : s.writer.output.pending = ch :: rest) (room : s.stdin.length < capacity) :
      Step p capacity s { s with
        writer := { s.writer with output := { s.writer.output with pending := rest } }
        stdin := s.stdin ++ [ch] }
  | broken {s : Exec κ} {answer : WaitAnswer} (gone : s.child = .gone answer)
      (pending : s.writer.output.pending ≠ []) :
      Step p capacity s { s with writer := { s.writer with output := ⟨[], false⟩ } }
  | compute {s : Exec κ} {k next : κ} (runs : s.child = .runs k) (act : p.act k = .compute next) :
      Step p capacity s { s with child := .runs next }
  | read {s : Exec κ} {k : κ} {next : Option UInt8 → κ} {ch : UInt8} {rest : Bytes}
      (runs : s.child = .runs k) (act : p.act k = .read next) (there : s.stdin = ch :: rest) :
      Step p capacity s { s with child := .runs (next (some ch)), stdin := rest }
  | readEnd {s : Exec κ} {k : κ} {next : Option UInt8 → κ} (runs : s.child = .runs k)
      (act : p.act k = .read next) (empty : s.stdin = []) (closed : s.phase = .closed) :
      Step p capacity s { s with child := .runs (next none) }
  | write {s : Exec κ} {k next : κ} {e : Bool} {ch : UInt8} (runs : s.child = .runs k)
      (act : p.act k = .write e ch next) (room : (s.pipes e).length < capacity) :
      Step p capacity s { s with
        child := .runs next
        pipes := Function.update s.pipes e (s.pipes e ++ [ch]) }
  | exit {s : Exec κ} {k : κ} {answer : WaitAnswer} (runs : s.child = .runs k)
      (act : p.act k = .exit answer) : Step p capacity s { s with child := .gone answer }
  | pipe {s : Exec κ} {e : Bool} {ch : UInt8} {rest : Bytes} (going : s.finished e = false)
      (there : s.pipes e = ch :: rest) :
      Step p capacity s { s with
        pipes := Function.update s.pipes e rest
        readers := Function.update s.readers e
          (({ s.readers e with source := [ch] } : Pipe Bytes).round stringstream) }
  | pipeEnd {s : Exec κ} {e : Bool} {answer : WaitAnswer} (going : s.finished e = false)
      (empty : s.pipes e = []) (gone : s.child = .gone answer) :
      Step p capacity s { s with
        readers := Function.update s.readers e (Exec.leave stringstream ((s.readers e).round stringstream))
        finished := Function.update s.finished e true }
  | wait {s : Exec κ} {answer : WaitAnswer} {process : ProcessImpl} {res : Int}
      (main : s.main = .waits) (gone : s.child = .gone answer)
      (waited : s.process.wait answer = (process, .ok res)) :
      Step p capacity s { s with main := .joins 0 res, process := process }
  | join {s : Exec κ} {thread : Nat} {res : Int} (main : s.main = .joins thread res)
      (done : s.threadDone thread) :
      Step p capacity s { s with main := if thread < 2 then .joins (thread + 1) res else .returned res }

def joined : MainPhase → Nat
  | .waits => 0
  | .joins thread _ => thread
  | .returned _ => 3

def result : MainPhase → Option Int
  | .waits => none
  | .joins _ res | .returned res => some res

/-- What the writer has to do with the input that the program has not read. -/
structure Feeds (s : Exec κ) (a : Alone κ) : Prop where
  drained : s.writer.good = false → s.writer.source = []
  input : ∀ k, s.child = .runs k →
    a.input = s.stdin ++ (s.writer.output.pending ++ (s.writer.buf ++ s.writer.source))
  good : ∀ k, s.child = .runs k → s.writer.output.good = true
  left : ∀ k, s.child = .runs k → s.phase ≠ .copies → s.writer.buf = [] ∧ s.writer.source = []
  closed : s.phase = .closed → s.writer.output.pending = []

/-- What the readers have of the output of the program. -/
structure Drains (s : Exec κ) (a : Alone κ) : Prop where
  output : ∀ e, a.output e = (s.readers e).output ++ ((s.readers e).buf ++ s.pipes e)
  source : ∀ e, (s.readers e).source = []
  ended : ∀ e, s.finished e = true → (∃ answer, s.child = .gone answer) ∧ s.pipes e = [] ∧
    (s.readers e).buf = []

structure Knows (pid : Int) (s : Exec κ) : Prop where
  process : s.main = .waits → s.process = .start pid
  known : ∀ res, result s.main = some res → ∃ answer, s.child = .gone answer ∧
    answer.exitcode = res
  few : ∀ thread res, s.main = .joins thread res → thread < 3
  done : ∀ thread < joined s.main, s.threadDone thread

/-- A byte is read, written, and taken by the operating system. -/
def writerWeight (s : Exec κ) : Nat :=
  3 * s.writer.source.length + 2 * s.writer.buf.length + s.writer.output.pending.length +
    s.writer.good.toNat + s.phase.weight

def readerWeight (s : Exec κ) (e : Bool) : Nat :=
  3 * (s.pipes e).length + 2 * (s.readers e).buf.length + (!s.finished e).toNat

def weight (s : Exec κ) : Nat :=
  s.child.weight + s.writerWeight + (s.readerWeight false + s.readerWeight true) + s.main.weight

structure Follows (p : Program κ) (pid : Int) (s : Exec κ) (a : Alone κ) : Prop where
  state : ∀ k, s.child = .runs k → a.state = k
  exited : ∀ answer, s.child = .gone answer → p.act a.state = .exit answer
  feeds : s.Feeds a
  drains : s.Drains a
  knows : s.Knows pid

section Threads

theorem round_childStdin {l : Pipe ChildStdin} (flushed : l.output.pending = [])
    (drained : l.good = false → l.source = []) :
    (l.round childStdin).output.pending ++
        ((l.round childStdin).buf ++ (l.round childStdin).source) = l.buf ++ l.source ∧
      (l.round childStdin).output.good = l.output.good ∧
      ((l.round childStdin).good = false → (l.round childStdin).source = []) := by
  unfold Pipe.round
  cases there : l.source with
  | nil => simp [flushed]
  | cons c source =>
    have good : l.good = true := by
      by_contra bad
      have nothing := drained (by simpa using bad)
      rw [there] at nothing
      contradiction
    simp only
    split
    · simp [Pipe.send, childStdin, flushed, good]
    · simp [flushed, good]

theorem leave_childStdin {l : Pipe ChildStdin} (flushed : l.output.pending = [])
    (good : l.output.good = true) :
    (leave childStdin l).output.pending ++ (leave childStdin l).buf = l.buf ∧
      (leave childStdin l).buf = [] ∧ (leave childStdin l).source = l.source ∧
      (leave childStdin l).output.good = true := by
  unfold leave
  split
  · simp [Pipe.send, childStdin, flushed, good]
  · rename_i nothing
    have empty : l.buf = [] := by
      rw [← List.length_eq_zero_iff]
      by_contra some_left
      exact nothing ⟨by omega, good⟩
    simp [flushed, empty, good]

theorem round_stringstream (l : Pipe Bytes) (ch : UInt8) :
    let l' := ({ l with source := [ch] } : Pipe Bytes).round stringstream
    l'.output ++ l'.buf = l.output ++ (l.buf ++ [ch]) ∧ l'.source = [] := by
  simp only [Pipe.round]
  split
  · simp [Pipe.send, stringstream]
  · simp

theorem leave_stringstream {l : Pipe Bytes} (empty : l.source = []) :
    let l' := leave stringstream (l.round stringstream)
    l'.output = l.output ++ l.buf ∧ l'.buf = [] ∧ l'.source = [] := by
  have ended : l.round stringstream = { l with good := false } := by
    simp [Pipe.round, empty]
  simp only [ended, leave]
  split
  · simp [Pipe.send, stringstream, empty]
  · rename_i nothing
    have no_buf : l.buf = [] := by
      rw [← List.length_eq_zero_iff]
      by_contra some_left
      exact nothing ⟨Nat.pos_of_ne_zero some_left, rfl⟩
    simp [no_buf, empty]

end Threads

section Simulation

variable {p : Program κ} {capacity : Nat} {pid : Int} {s t : Exec κ} {a : Alone κ}

theorem Knows.keep (known : s.Knows pid) (main : t.main = s.main) (process : t.process = s.process)
    (gone : ∀ answer, s.child = .gone answer → t.child = .gone answer)
    (done : ∀ thread, s.threadDone thread → t.threadDone thread) : t.Knows pid where
  process waits := process ▸ known.process (main ▸ waits)
  known res there := by
    obtain ⟨answer, left, exitcode⟩ := known.known res (main ▸ there)
    exact ⟨answer, gone answer left, exitcode⟩
  few thread res joins := known.few thread res (main ▸ joins)
  done thread before := done thread (known.done thread (main ▸ before))

theorem Drains.runs {a' : Alone κ} {k : κ} (drains : s.Drains a) (runs : s.child = .runs k)
    (readers : t.readers = s.readers) (finished : t.finished = s.finished)
    (output : ∀ e, a'.output e = (s.readers e).output ++ ((s.readers e).buf ++ t.pipes e)) :
    t.Drains a' where
  output e := by simpa [readers] using output e
  source e := by simpa [readers] using drains.source e
  ended e done := by
    obtain ⟨⟨answer, gone⟩, _⟩ := drains.ended e (finished ▸ done)
    rw [runs] at gone
    contradiction

theorem Feeds.gone {answer : WaitAnswer} (gone : s.child = .gone answer)
    (drained : s.writer.good = false → s.writer.source = [])
    (closed : s.phase = .closed → s.writer.output.pending = []) : s.Feeds a where
  drained := drained
  input k runs := by simp [gone] at runs
  good k runs := by simp [gone] at runs
  left k runs := by simp [gone] at runs
  closed := closed

theorem Follows.start {k : κ} {input : Bytes} :
    (Exec.start pid k input).Follows p pid ⟨k, input, fun _ => []⟩ where
  state k' runs := by simpa [Exec.start] using runs
  exited answer gone := by simp [Exec.start] at gone
  feeds := ⟨by simp [Exec.start], by simp [Exec.start], by simp [Exec.start], by simp [Exec.start],
    by simp [Exec.start]⟩
  drains := ⟨by simp [Exec.start], by simp [Exec.start], by simp [Exec.start]⟩
  knows := ⟨by simp [Exec.start], by simp [Exec.start, result], by simp [Exec.start],
    by simp [Exec.start, joined]⟩

theorem Feeds.copy (feeds : s.Feeds a) (phase : s.phase = .copies)
    (flushed : s.writer.output.pending = []) :
    Feeds { s with writer := s.writer.round childStdin } a := by
  obtain ⟨whole, good, drained⟩ := round_childStdin flushed feeds.drained
  refine ⟨drained, fun k runs => ?_, fun k runs => good ▸ feeds.good k runs,
    fun k _ other => absurd phase other, fun closed => by simp [phase] at closed⟩
  have input := feeds.input k runs
  rw [flushed] at input
  exact input.trans (congrArg (s.stdin ++ ·) whole.symm)

theorem Feeds.leave (feeds : s.Feeds a)
    (flushed : s.writer.output.pending = [])
    (stop : (s.writer.good && s.writer.output.good) = false) :
    Feeds { s with writer := Exec.leave childStdin s.writer, phase := .flushes } a := by
  have source : (Exec.leave childStdin s.writer).source = s.writer.source ∧
      (Exec.leave childStdin s.writer).good = s.writer.good := by
    unfold Exec.leave
    split <;> simp [Pipe.send]
  have drained : s.writer.good = false → s.writer.source = [] := feeds.drained
  cases child : s.child with
  | gone answer =>
    exact .gone rfl (fun bad => source.1.trans (drained (source.2 ▸ bad))) (by simp)
  | runs k =>
    have good := feeds.good k child
    obtain ⟨whole, no_buf, _, still⟩ := leave_childStdin flushed good
    have no_source : s.writer.source = [] := drained (by simpa [good] using stop)
    refine ⟨fun _ => source.1.trans no_source, fun k' runs => ?_, fun _ _ => still,
      fun _ _ _ => ⟨no_buf, source.1.trans no_source⟩, by simp⟩
    have input := feeds.input k' (child.trans runs)
    simp only [flushed, no_source, List.append_nil, List.nil_append] at input
    simp only [input, ← whole, source.1, no_source, List.append_nil, no_buf]

theorem Feeds.send {ch : UInt8} {rest : Bytes} (feeds : s.Feeds a)
    (pending : s.writer.output.pending = ch :: rest) :
    Feeds { s with
      writer := { s.writer with output := { s.writer.output with pending := rest } }
      stdin := s.stdin ++ [ch] } a where
  drained := feeds.drained
  input k' runs' := by simpa [pending] using feeds.input k' runs'
  good := feeds.good
  left := feeds.left
  closed closed := by simp [feeds.closed closed] at pending

theorem Follows.child {a' : Alone κ} {k next : κ} {stdin : Bytes} {pipes : Bool → Bytes}
    (follows : s.Follows p pid a) (runs : s.child = .runs k) (state : a'.state = next)
    (input : a'.input =
      stdin ++ (s.writer.output.pending ++ (s.writer.buf ++ s.writer.source)))
    (output : ∀ e, a'.output e = (s.readers e).output ++ ((s.readers e).buf ++ pipes e)) :
    Follows p pid { s with child := .runs next, stdin := stdin, pipes := pipes } a' where
  state k' runs' := state.trans (Child.runs.inj runs')
  exited answer gone := by simp at gone
  feeds :=
    have feeds := follows.feeds
    ⟨feeds.drained, fun _ _ => input, fun _ _ => feeds.good k runs, fun _ _ => feeds.left k runs,
      feeds.closed⟩
  drains := follows.drains.runs runs rfl rfl output
  knows := follows.knows.keep rfl rfl (fun answer gone => by simp [runs] at gone)
    (fun _ done => done)

theorem Follows.exit {k : κ} {answer : WaitAnswer} (follows : s.Follows p pid a)
    (runs : s.child = .runs k) (act : p.act k = .exit answer) :
    Follows p pid { s with child := .gone answer } a where
  state k' runs' := by simp at runs'
  exited answer' gone := by
    cases gone
    rw [follows.state k runs, act]
  feeds := .gone rfl follows.feeds.drained follows.feeds.closed
  drains := follows.drains.runs runs rfl rfl follows.drains.output
  knows := follows.knows.keep rfl rfl (fun answer gone => by simp [runs] at gone)
    (fun _ done => done)

theorem Drains.pipe {e : Bool} {ch : UInt8} {rest : Bytes} (drains : s.Drains a)
    (going : s.finished e = false) (there : s.pipes e = ch :: rest) :
    Drains { s with
      pipes := Function.update s.pipes e rest
      readers := Function.update s.readers e
        (({ s.readers e with source := [ch] } : Pipe Bytes).round stringstream) } a := by
  obtain ⟨whole, no_source⟩ := round_stringstream (s.readers e) ch
  constructor
  · intro e'
    by_cases same : e' = e
    · subst same
      calc a.output e' = (s.readers e').output ++ ((s.readers e').buf ++ [ch]) ++ rest := by
            simp [drains.output e', there]
        _ = _ := by
            rw [← whole]
            simp
    · simp [same, drains.output e']
  · intro e'
    by_cases same : e' = e
    · subst same
      simpa using no_source
    · simp [same, drains.source e']
  · intro e' done
    have other : e' ≠ e := by
      rintro rfl
      simp [going] at done
    simpa [other] using drains.ended e' done

theorem Drains.pipeEnd {e : Bool} {answer : WaitAnswer} (drains : s.Drains a)
    (empty : s.pipes e = []) (gone : s.child = .gone answer) :
    Drains { s with
      readers := Function.update s.readers e
        (Exec.leave stringstream ((s.readers e).round stringstream))
      finished := Function.update s.finished e true } a := by
  obtain ⟨whole, no_buf, no_source⟩ := leave_stringstream (drains.source e)
  constructor
  · intro e'
    by_cases same : e' = e
    · subst same
      simp [drains.output e', whole, no_buf]
    · simp [same, drains.output e']
  · intro e'
    by_cases same : e' = e
    · subst same
      simpa using no_source
    · simp [same, drains.source e']
  · intro e' done
    by_cases same : e' = e
    · subst same
      exact ⟨⟨answer, gone⟩, empty, by simpa using no_buf⟩
    · simp only [Function.update_of_ne same] at done ⊢
      exact drains.ended e' done

theorem round_childStdin_weight {l : Pipe ChildStdin} (flushed : l.output.pending = [])
    (good : l.good = true) :
    let l' := l.round childStdin
    3 * l'.source.length + 2 * l'.buf.length + l'.output.pending.length + l'.good.toNat <
      3 * l.source.length + 2 * l.buf.length + l.output.pending.length + l.good.toNat := by
  unfold Pipe.round
  cases there : l.source with
  | nil => simp [good]
  | cons c source =>
    simp only
    split
    · simp [Pipe.send, childStdin, flushed]
      omega
    · simp
      omega

theorem leave_childStdin_weight {l : Pipe ChildStdin} (flushed : l.output.pending = []) :
    let l' := leave childStdin l
    3 * l'.source.length + 2 * l'.buf.length + l'.output.pending.length + l'.good.toNat ≤
      3 * l.source.length + 2 * l.buf.length + l.output.pending.length + l.good.toNat := by
  simp only [leave]
  split
  · simp [Pipe.send, childStdin, flushed]
    omega
  · exact Nat.le_refl _

theorem round_stringstream_weight (l : Pipe Bytes) (ch : UInt8) :
    (({ l with source := [ch] } : Pipe Bytes).round stringstream).buf.length ≤
      l.buf.length + 1 := by
  simp only [Pipe.round]
  split <;> simp [Pipe.send]

theorem readerWeight_lt {e : Bool} (there : t.readerWeight e < s.readerWeight e)
    (elsewhere : ∀ e', e' ≠ e → t.readerWeight e' = s.readerWeight e') :
    t.readerWeight false + t.readerWeight true < s.readerWeight false + s.readerWeight true := by
  cases e with
  | false =>
    have := elsewhere true (by simp)
    omega
  | true =>
    have := elsewhere false (by simp)
    omega

theorem pipe_weight {e : Bool} {ch : UInt8} {rest : Bytes} (there : s.pipes e = ch :: rest) :
    weight { s with
      pipes := Function.update s.pipes e rest
      readers := Function.update s.readers e
        (({ s.readers e with source := [ch] } : Pipe Bytes).round stringstream) } <
      s.weight := by
  have buf := round_stringstream_weight (s.readers e) ch
  have less := readerWeight_lt (s := s) (e := e) (t := { s with
    pipes := Function.update s.pipes e rest
    readers := Function.update s.readers e
      (({ s.readers e with source := [ch] } : Pipe Bytes).round stringstream) })
    (by
      simp only [readerWeight, Function.update_self, there, List.length_cons]
      omega)
    (fun e' other => by simp [readerWeight, other])
  simp only [weight, writerWeight] at less ⊢
  omega

theorem pipeEnd_weight {e : Bool} (going : s.finished e = false)
    (no_buf : (Exec.leave stringstream ((s.readers e).round stringstream)).buf = []) :
    weight { s with
      readers := Function.update s.readers e
        (Exec.leave stringstream ((s.readers e).round stringstream))
      finished := Function.update s.finished e true } < s.weight := by
  have less := readerWeight_lt (s := s) (e := e) (t := { s with
    readers := Function.update s.readers e
      (Exec.leave stringstream ((s.readers e).round stringstream))
    finished := Function.update s.finished e true })
    (by
      simp only [readerWeight, Function.update_self, no_buf, going, List.length_nil]
      simp only [Bool.not_true, Bool.toNat_false, Bool.not_false, Bool.toNat_true]
      omega)
    (fun e' other => by simp [readerWeight, other])
  simp only [weight, writerWeight] at less ⊢
  omega

theorem write_weight {e : Bool} {ch : UInt8} {k next : κ} (runs : s.child = .runs k) :
    weight { s with
      child := .runs next
      pipes := Function.update s.pipes e (s.pipes e ++ [ch]) } ≤ s.weight + 3 := by
  cases e <;> simp [weight, writerWeight, readerWeight, runs, Child.weight] <;> omega

theorem Follows.writer {writer : Pipe ChildStdin} {phase : WriterPhase} {stdin : Bytes}
    (follows : s.Follows p pid a)
    (feeds : Feeds { s with writer := writer, phase := phase, stdin := stdin } a)
    (closed : s.phase = .closed → phase = .closed) :
    Follows p pid { s with writer := writer, phase := phase, stdin := stdin } a where
  state := follows.state
  exited := follows.exited
  feeds := feeds
  drains := ⟨follows.drains.output, follows.drains.source, follows.drains.ended⟩
  knows := follows.knows.keep rfl rfl (fun _ gone => gone) fun thread done =>
    match thread, done with
    | 0, done => closed done
    | 1, done => done
    | _ + 2, done => done

theorem writer_weight {writer : Pipe ChildStdin} {phase : WriterPhase} {stdin : Bytes}
    (lower : writerWeight { s with writer := writer, phase := phase, stdin := stdin } <
      s.writerWeight) :
    weight { s with writer := writer, phase := phase, stdin := stdin } < s.weight := by
  simp only [weight, readerWeight] at *
  omega

theorem Follows.reader {readers : Bool → Pipe Bytes} {pipes : Bool → Bytes} {finished : Bool → Bool}
    (follows : s.Follows p pid a)
    (drains : Drains { s with readers := readers, pipes := pipes, finished := finished } a)
    (ended : ∀ e, s.finished e = true → finished e = true) :
    Follows p pid { s with readers := readers, pipes := pipes, finished := finished } a where
  state := follows.state
  exited := follows.exited
  feeds := ⟨follows.feeds.drained, follows.feeds.input, follows.feeds.good, follows.feeds.left,
    follows.feeds.closed⟩
  drains := drains
  knows := follows.knows.keep rfl rfl (fun _ gone => gone) fun thread done =>
    match thread, done with
    | 0, done => done
    | 1, done => ended false done
    | _ + 2, done => ended true done

theorem Follows.wait {answer : WaitAnswer} {process : ProcessImpl} {res : Int} (positive : pid ≠ 0)
    (follows : s.Follows p pid a) (main : s.main = .waits) (gone : s.child = .gone answer)
    (waited : s.process.wait answer = (process, .ok res)) :
    Follows p pid { s with main := .joins 0 res, process := process } a where
  state := follows.state
  exited := follows.exited
  feeds := ⟨follows.feeds.drained, follows.feeds.input, follows.feeds.good, follows.feeds.left,
    follows.feeds.closed⟩
  drains := ⟨follows.drains.output, follows.drains.source, follows.drains.ended⟩
  knows := by
    obtain ⟨process', known⟩ := ProcessImpl.wait_alive (q := .start pid) positive (p.exits _ _ (follows.exited answer gone))
    have same : answer.exitcode = res := by
      rw [follows.knows.process main, known] at waited
      simpa using congrArg Prod.snd waited
    exact ⟨by simp, fun res' there => ⟨answer, gone, by simpa [result, same] using there⟩,
      by simp, by simp [joined]⟩

theorem Follows.join {thread : Nat} {res : Int} (follows : s.Follows p pid a)
    (main : s.main = .joins thread res) (done : s.threadDone thread) :
    Follows p pid
      { s with main := if thread < 2 then .joins (thread + 1) res else .returned res } a where
  state := follows.state
  exited := follows.exited
  feeds := ⟨follows.feeds.drained, follows.feeds.input, follows.feeds.good, follows.feeds.left,
    follows.feeds.closed⟩
  drains := ⟨follows.drains.output, follows.drains.source, follows.drains.ended⟩
  knows := by
    have before := follows.knows.done
    have few := follows.knows.few thread res main
    have known := follows.knows.known res (by simp [main, result])
    have all : ∀ thread' ≤ thread, s.threadDone thread' := by
      intro thread' within
      rcases Nat.lt_or_eq_of_le within with lower | rfl
      · exact before thread' (by simpa [main, joined] using lower)
      · exact done
    by_cases more : thread < 2
    · simp only [more, if_true]
      exact ⟨by simp, fun res' there => Option.some.inj there ▸ known,
        fun thread' res' there => by
          simp only [MainPhase.joins.injEq] at there
          omega,
        fun thread' lower => all thread' (Nat.lt_succ_iff.mp lower)⟩
    · simp only [more, if_false]
      exact ⟨by simp, fun res' there => Option.some.inj there ▸ known, by simp,
        fun thread' lower => all thread' (by
          simp only [joined] at lower
          omega)⟩

/-- A step of the system is a step of the program, or lowers the weight. -/
theorem Follows.step (positive : pid ≠ 0) (follows : s.Follows p pid a) (step : Step p capacity s t) :
    ∃ a', t.Follows p pid a' ∧
      (a' = a ∧ t.weight < s.weight ∨ a.step p = some a' ∧ t.weight ≤ s.weight + 3) := by
  have input := follows.feeds.input
  have output := follows.drains.output
  cases step with
  | copy phase flushed go =>
    have lower := round_childStdin_weight flushed (Bool.and_eq_true_iff.mp go).1
    refine ⟨a, follows.writer (follows.feeds.copy phase flushed) id, .inl ⟨rfl, writer_weight ?_⟩⟩
    exact Nat.add_lt_add_right lower _
  | leave phase flushed stop =>
    have lower := leave_childStdin_weight flushed
    refine ⟨a, follows.writer (follows.feeds.leave flushed stop) (by simp [phase]),
      .inl ⟨rfl, writer_weight ?_⟩⟩
    rw [writerWeight, writerWeight, phase]
    exact Nat.add_lt_add_of_le_of_lt lower (Nat.lt_succ_self 1)
  | close phase flushed =>
    have feeds := follows.feeds
    refine ⟨a, follows.writer ⟨feeds.drained, feeds.input, feeds.good,
      fun k runs _ => feeds.left k runs (by simp [phase]), fun _ => flushed⟩ (fun _ => rfl),
      .inl ⟨rfl, writer_weight ?_⟩⟩
    rw [writerWeight, writerWeight, phase]
    exact Nat.lt_succ_self _
  | send runs pending room =>
    refine ⟨a, follows.writer (follows.feeds.send pending) id, .inl ⟨rfl, writer_weight ?_⟩⟩
    simp only [writerWeight, pending, List.length_cons]
    omega
  | broken gone pending =>
    refine ⟨a, follows.writer (.gone gone follows.feeds.drained (fun _ => rfl)) id,
      .inl ⟨rfl, writer_weight ?_⟩⟩
    have some_pending := List.length_pos_of_ne_nil pending
    simp only [writerWeight, List.length_nil]
    omega
  | @compute k next runs act =>
    have state := follows.state _ runs
    exact ⟨{ a with state := next }, follows.child runs rfl (input _ runs) output, .inr ⟨by simp [Alone.step, state, act],
      by simp [weight, writerWeight, readerWeight, runs, Child.weight]⟩⟩
  | @read k next ch rest runs act there =>
    have state := follows.state _ runs
    have before := input _ runs
    refine ⟨{ a with state := next (some ch), input := a.input.tail },
      follows.child runs rfl (by simp [before, there]) output,
      .inr ⟨by simp [Alone.step, state, act, before, there], ?_⟩⟩
    simp [weight, writerWeight, readerWeight, runs, Child.weight]
  | @readEnd k next runs act empty closed =>
    have state := follows.state _ runs
    have left := follows.feeds.left _ runs (by simp [closed])
    have at_end : a.input = [] := by
      simp [input _ runs, empty, follows.feeds.closed closed, left]
    refine ⟨{ a with state := next none }, follows.child runs rfl (input _ runs) output,
      .inr ⟨by simp [Alone.step, state, act, at_end], ?_⟩⟩
    simp [weight, writerWeight, readerWeight, runs, Child.weight]
  | @write k next e ch runs act room =>
    have state := follows.state _ runs
    refine ⟨{ a with state := next, output := Function.update a.output e (a.output e ++ [ch]) },
      follows.child runs rfl (input _ runs) (fun e' => ?_),
      .inr ⟨by simp [Alone.step, state, act], write_weight runs⟩⟩
    by_cases same : e' = e
    · subst same
      simp [output]
    · simp [same, output]
  | exit runs act =>
    exact ⟨a, follows.exit runs act, .inl ⟨rfl, by
      simp [weight, writerWeight, readerWeight, runs, Child.weight]⟩⟩
  | pipe going there =>
    exact ⟨a, follows.reader (follows.drains.pipe going there) (fun _ done => done),
      .inl ⟨rfl, pipe_weight there⟩⟩
  | @pipeEnd e answer going empty gone =>
    have no_buf := (leave_stringstream (follows.drains.source e)).2.1
    refine ⟨a, follows.reader (follows.drains.pipeEnd empty gone) (fun e' done => ?_),
      .inl ⟨rfl, pipeEnd_weight going no_buf⟩⟩
    by_cases same : e' = e
    · simp [same]
    · simpa [same] using done
  | wait main gone waited =>
    exact ⟨a, follows.wait positive main gone waited, .inl ⟨rfl, by
      simp [weight, writerWeight, readerWeight, main, MainPhase.weight]⟩⟩
  | @join thread res main done =>
    have few := follows.knows.few thread res main
    refine ⟨a, follows.join main done, .inl ⟨rfl, ?_⟩⟩
    simp only [weight, writerWeight, readerWeight, main]
    split <;> simp only [MainPhase.weight] <;> omega

/-- Somebody can always take a step until the main thread returns. -/
theorem Follows.goes_on (positive : pid ≠ 0) (room : 0 < capacity) (follows : s.Follows p pid a)
    (going : ∀ res, s.main ≠ .returned res) : ∃ t, Step p capacity s t := by
  have writes : s.phase ≠ .closed → s.writer.output.pending = [] → ∃ t, Step p capacity s t := by
    intro opened flushed
    cases phase : s.phase with
    | copies =>
      cases go : s.writer.good && s.writer.output.good with
      | true => exact ⟨_, .copy phase flushed go⟩
      | false => exact ⟨_, .leave phase flushed go⟩
    | flushes => exact ⟨_, .close phase flushed⟩
    | closed => exact absurd phase opened
  cases child : s.child with
  | runs k =>
    cases act : p.act k with
    | compute next => exact ⟨_, .compute child act⟩
    | exit answer => exact ⟨_, .exit child act⟩
    | write e ch next =>
      cases there : s.pipes e with
      | nil => exact ⟨_, .write child act (by simpa [there] using room)⟩
      | cons ch' rest =>
        have reads : s.finished e = false := by
          by_contra done
          have empty := (follows.drains.ended e (by simpa using done)).2.1
          simp [there] at empty
        exact ⟨_, .pipe reads there⟩
    | read next =>
      cases there : s.stdin with
      | cons ch rest => exact ⟨_, .read child act there⟩
      | nil =>
        cases pending : s.writer.output.pending with
        | cons ch rest => exact ⟨_, .send child pending (by simpa [there] using room)⟩
        | nil =>
          by_cases closed : s.phase = .closed
          · exact ⟨_, .readEnd child act there closed⟩
          · exact writes closed pending
  | gone answer =>
    have reads : ∀ e, s.finished e = false → ∃ t, Step p capacity s t := by
      intro e going
      cases there : s.pipes e with
      | nil => exact ⟨_, .pipeEnd going there child⟩
      | cons ch rest => exact ⟨_, .pipe going there⟩
    cases main : s.main with
    | waits =>
      obtain ⟨process, waited⟩ := ProcessImpl.wait_alive (q := .start pid) positive (p.exits _ _ (follows.exited answer child))
      exact ⟨_, .wait main child (follows.knows.process main ▸ waited)⟩
    | joins thread res =>
      by_cases done : s.threadDone thread
      · exact ⟨_, .join main done⟩
      · match thread with
        | 0 =>
          by_cases flushed : s.writer.output.pending = []
          · exact writes done flushed
          · exact ⟨_, .broken child flushed⟩
        | 1 => exact reads false (by simpa [threadDone] using done)
        | _ + 2 => exact reads true (by simpa [threadDone] using done)
    | returned res => exact absurd main (going res)

end Simulation

variable {p : Program κ} {capacity : Nat} {pid : Int}

/-- The program of the state on its own still takes so many steps before it exits. -/
def Ranked (p : Program κ) (pid : Int) (last : Alone κ) (s : Exec κ) (m : Nat) : Prop :=
  ∃ a n, s.Follows p pid a ∧ Alone.Steps p n a last ∧ m = 4 * n + s.weight

theorem Ranked.lowers (positive : pid ≠ 0) {last : Alone κ} {answer : WaitAnswer}
    (exits : p.act last.state = .exit answer) (s t : Exec κ) (m : Nat) (ranked : Ranked p pid last s m)
    (step : Step p capacity s t) : ∃ m' < m, Ranked p pid last t m' := by
  obtain ⟨a, n, follows, steps, rfl⟩ := ranked
  obtain ⟨a', after, ⟨rfl, lower⟩ | ⟨taken, within⟩⟩ := follows.step positive step
  · exact ⟨_, by omega, a', n, after, steps, rfl⟩
  · cases steps with
    | refl =>
      rw [Alone.step_exit exits] at taken
      contradiction
    | @next n _ b _ first later =>
      obtain rfl : b = a' := Option.some.inj (first.symm.trans taken)
      exact ⟨4 * n + t.weight, by omega, b, n, after, later, rfl⟩

theorem Ranked.start {k : κ} {input : Bytes} {n : Nat} {last : Alone κ}
    (steps : Alone.Steps p n ⟨k, input, fun _ => []⟩ last) :
    Ranked p pid last (Exec.start pid k input) (4 * n + 3 * input.length + 10) :=
  ⟨_, n, .start, steps, by
    simp [weight, writerWeight, readerWeight, Exec.start, Child.weight, WriterPhase.weight,
      MainPhase.weight]
    omega⟩

theorem Follows.returned {s : Exec κ} {a : Alone κ} {res : Int} (follows : s.Follows p pid a)
    (returned : s.main = .returned res) :
    ∃ answer, p.act a.state = .exit answer ∧ res = answer.exitcode ∧
      ∀ e, (s.readers e).output = a.output e := by
  obtain ⟨answer, gone, exitcode⟩ := follows.knows.known res (by simp [returned, result])
  have done := follows.knows.done
  simp only [returned, joined] at done
  refine ⟨answer, follows.exited answer gone, exitcode.symm, fun e => ?_⟩
  have finished : s.finished e = true := by
    cases e with
    | false => exact done 1 (by decide)
    | true => exact done 2 (by decide)
  obtain ⟨_, no_pipe, no_buf⟩ := follows.drains.ended e finished
  simp [follows.drains.output e, no_pipe, no_buf]

theorem follows_of_path (positive : pid ≠ 0) {k : κ} {input : Bytes} {n : Nat} {s : Exec κ}
    (path : Schedule.Path (Step p capacity) n (Exec.start pid k input) s) :
    ∃ a m, s.Follows p pid a ∧ Alone.Steps p m ⟨k, input, fun _ => []⟩ a :=
  path.keep
    (fun s => ∃ a m, s.Follows p pid a ∧ Alone.Steps p m ⟨k, input, fun _ => []⟩ a)
    (fun s t ⟨a, m, follows, steps⟩ step => by
      obtain ⟨a', after, ⟨rfl, _⟩ | ⟨taken, _⟩⟩ := follows.step positive step
      · exact ⟨a', m, after, steps⟩
      · exact ⟨a', m + 1, after, steps.snoc taken⟩)
    ⟨_, 0, .start, .refl _⟩

theorem exec_returns (positive : pid ≠ 0) {k : κ} {input : Bytes} {n : Nat} {s : Exec κ} {res : Int}
    (path : Schedule.Path (Step p capacity) n (Exec.start pid k input) s)
    (returned : s.main = .returned res) :
    ∃ n last answer, Alone.EndsIn p n ⟨k, input, fun _ => []⟩ last answer ∧
      res = answer.exitcode ∧ ∀ e, (s.readers e).output = last.output e := by
  obtain ⟨a, m, follows, steps⟩ := follows_of_path positive path
  obtain ⟨answer, exits, exitcode, outputs⟩ := follows.returned returned
  exact ⟨m, a, answer, ⟨steps, exits⟩, exitcode, outputs⟩

theorem Ranked.returned {last : Alone κ} {answer : WaitAnswer}
    (exits : p.act last.state = .exit answer) {s : Exec κ} {m : Nat} (ranked : Ranked p pid last s m)
    {res : Int} (returned : s.main = .returned res) :
    res = answer.exitcode ∧ ∀ e, (s.readers e).output = last.output e := by
  obtain ⟨a, n, follows, steps, _⟩ := ranked
  obtain ⟨answer', exits', exitcode, outputs⟩ := follows.returned returned
  cases steps with
  | refl =>
    obtain rfl : answer' = answer := by simpa [exits] using exits'.symm
    exact ⟨exitcode, outputs⟩
  | next first _ =>
    rw [Alone.step_exit exits'] at first
    contradiction

theorem Follows.stuck {s : Exec κ} {a : Alone κ} {res : Int} (follows : s.Follows p pid a)
    (returned : s.main = .returned res) : Schedule.Stuck (Step p capacity) s := by
  obtain ⟨answer, gone, _⟩ := follows.knows.known res (by simp [returned, result])
  have done := follows.knows.done
  simp only [returned, joined] at done
  have closed : s.phase = .closed := done 0 (by decide)
  have finished : ∀ e, s.finished e = true := fun e =>
    match e with
    | false => done 1 (by decide)
    | true => done 2 (by decide)
  intro t step
  cases step with
  | copy phase | leave phase | close phase => simp [closed] at phase
  | send runs | compute runs | read runs | readEnd runs | write runs | exit runs =>
    simp [gone] at runs
  | broken _ pending => exact pending (follows.feeds.closed closed)
  | pipe going | pipeEnd going => simp [finished] at going
  | wait main | join main => simp [returned] at main

theorem Follows.stuck_iff {s : Exec κ} {a : Alone κ} (positive : pid ≠ 0) (room : 0 < capacity)
    (follows : s.Follows p pid a) :
    Schedule.Stuck (Step p capacity) s ↔ ∃ res, s.main = .returned res := by
  constructor
  · intro stuck
    by_contra going
    obtain ⟨t, step⟩ := follows.goes_on positive room fun res returned => going ⟨res, returned⟩
    exact stuck t step
  · rintro ⟨res, returned⟩
    exact follows.stuck returned

/-- If the program alone exits then no order of steps goes on for ever, and none stops before `exec`
has returned. -/
theorem exec_ends (positive : pid ≠ 0) (room : 0 < capacity) {k : κ} {input : Bytes} {n : Nat}
    {last : Alone κ} {answer : WaitAnswer}
    (alone : Alone.EndsIn p n ⟨k, input, fun _ => []⟩ last answer) {m : Nat} {s : Exec κ}
    (path : Schedule.Path (Step p capacity) m (Exec.start pid k input) s) :
    m ≤ 4 * n + 3 * input.length + 10 ∧
      (Schedule.Stuck (Step p capacity) s ↔ s.main = .returned answer.exitcode) ∧
      ∃ m' t, Schedule.Path (Step p capacity) m' s t ∧ t.main = .returned answer.exitcode ∧
        ∀ e, (t.readers e).output = last.output e := by
  have ends : ∀ {t : Exec κ} {m}, Ranked p pid last t m → Schedule.Stuck (Step p capacity) t →
      t.main = .returned answer.exitcode := by
    intro t m ranked stuck
    have ⟨_, _, follows, _⟩ := ranked
    obtain ⟨res, returned⟩ := (follows.stuck_iff positive room).mp stuck
    exact (ranked.returned alone.2 returned).1 ▸ returned
  have lowers : ∀ s t m, Ranked p pid last s m → Step p capacity s t →
      ∃ m' < m, Ranked p pid last t m' := Ranked.lowers positive alone.2
  obtain ⟨m', within, ranked⟩ := path.bounded _ lowers (Ranked.start alone.1)
  refine ⟨by omega, ⟨ends ranked, fun returned => ?_⟩, ?_⟩
  · obtain ⟨a, _, follows, _⟩ := ranked
    exact follows.stuck returned
  · obtain ⟨n', t, rest, stuck⟩ := Schedule.exists_stuck _ lowers ranked
    obtain ⟨_, _, left⟩ := rest.bounded _ lowers ranked
    have returned := ends left stuck
    exact ⟨n', t, rest, returned, (left.returned alone.2 returned).2⟩

/-- However the child and the threads are scheduled and whatever the pipes hold, the exit code and
the two strings of `exec` are those of the program alone. Nobody is left waiting, and `exec` returns
if and only if the program exits. -/
theorem exec_alone (positive : pid ≠ 0) (room : 0 < capacity) {k : κ} {input : Bytes} {m : Nat}
    {s : Exec κ} (path : Schedule.Path (Step p capacity) m (Exec.start pid k input) s) :
    (∀ res, s.main = .returned res → ∃ n last answer,
      Alone.EndsIn p n ⟨k, input, fun _ => []⟩ last answer ∧ res = answer.exitcode ∧
        ∀ e, (s.readers e).output = last.output e) ∧
    (Schedule.Stuck (Step p capacity) s ↔ ∃ res, s.main = .returned res) ∧
    ∀ n last answer, Alone.EndsIn p n ⟨k, input, fun _ => []⟩ last answer →
      m ≤ 4 * n + 3 * input.length + 10 ∧
        (Schedule.Stuck (Step p capacity) s ↔ s.main = .returned answer.exitcode) ∧
        ∃ m' t, Schedule.Path (Step p capacity) m' s t ∧ t.main = .returned answer.exitcode ∧
          ∀ e, (t.readers e).output = last.output e := by
  obtain ⟨a, _, follows, _⟩ := follows_of_path positive path
  exact ⟨fun _ returned => exec_returns positive path returned, follows.stuck_iff positive room,
    fun _ _ _ alone => exec_ends positive room alone path⟩

def echo : Program (Option (Option UInt8)) where
  act
    | none => .read some
    | some (some ch) => .write false ch none
    | some none => .exit (.exited 3)
  exits k answer exit := by
    match k with
    | none => simp at exit
    | some (some ch) => simp at exit
    | some none => exact Act.exit.inj exit ▸ rfl

theorem exec_alone_echo :
    ∃ m t, Schedule.Path (Step echo 1) m (Exec.start 17 none [104, 105]) t ∧ t.main = .returned 3 ∧
      (t.readers false).output = [104, 105] ∧ (t.readers true).output = [] := by
  have alone : Alone.EndsIn echo 5 ⟨none, [104, 105], fun _ => []⟩
      ⟨some none, [], Function.update (Function.update (fun _ => []) false [104]) false [104, 105]⟩
      (.exited 3) :=
    ⟨.next rfl (.next rfl (.next rfl (.next rfl (.next rfl (.refl _))))), rfl⟩
  have path : Schedule.Path (Step echo 1) 0 (Exec.start 17 none [104, 105]) _ := .refl _
  obtain ⟨_, _, m, t, path, returned, output⟩ :=
    (exec_alone (by decide) Nat.one_pos path).2.2 _ _ _ alone
  exact ⟨m, t, path, returned, output false, output true⟩

end Exec

end HttpAudioServer

import HttpAudioServer.Execution

/-! The decoder class with the process behind it: the child, the main thread, which reads what it
writes, and the thread of the messages. The decoder is used as a stream does: it is read from,
and then destroyed. -/
namespace HttpAudioServer

namespace Output

theorem drop_drop (m n : Nat) (out : Output) : (out.drop m).drop n = out.drop (m + n) := by
  cases out with
  | finite bytes => simp [drop]
  | endless bytes => simp [drop, Stream'.drop_drop]

theorem drop_zero (out : Output) : out.drop 0 = out := by
  cases out <;> simp [drop]

theorem take_add (m n : Nat) (out : Output) : out.take (m + n) = out.take m ++ (out.drop m).take n := by
  cases out with
  | finite bytes => exact List.take_add
  | endless bytes =>
    simp only [take, drop]
    induction m generalizing bytes with
    | zero => simp
    | succ m ih =>
      rw [Nat.succ_add, Stream'.take_succ, Stream'.take_succ, Stream'.drop_succ, ih]
      rfl

theorem take_append {out : Output} {xs ys : Bytes}
    (begins : out.take (xs ++ ys).length = xs ++ ys) :
    out.take xs.length = xs ∧ (out.drop xs.length).take ys.length = ys := by
  rw [List.length_append, take_add] at begins
  refine List.append_inj' begins ?_
  have whole := congrArg List.length begins
  have first := length_take_le xs.length out
  have second := length_take_le ys.length (out.drop xs.length)
  simp only [List.length_append] at whole
  omega

/-- What reads of so many bytes take, one after the other. -/
def cuts (out : Output) : List Nat → List Bytes
  | [] => []
  | n :: ns => out.take n :: (out.drop n).cuts ns

theorem length_cuts (out : Output) (ns : List Nat) : (out.cuts ns).length = ns.length := by
  induction ns generalizing out with
  | nil => rfl
  | cons n ns ih => simp [cuts, ih]

def rest (out : Output) (ns : List Nat) : Output := ns.foldl (fun out n => out.drop n) out

theorem cuts_concat (out : Output) (ns : List Nat) (n : Nat) :
    out.cuts (ns ++ [n]) = out.cuts ns ++ [(out.rest ns).take n] := by
  induction ns generalizing out with
  | nil => rfl
  | cons m ns ih => simp [cuts, rest, ih]

theorem rest_concat (out : Output) (ns : List Nat) (n : Nat) :
    out.rest (ns ++ [n]) = (out.rest ns).drop n := by
  simp [rest]

end Output

namespace Alone

variable {κ : Type} {p : Program κ} {a : Alone κ}

/-- What a program writes to its standard output: what it has written begins it, and a program that
exits has written all of it. -/
structure Writes (p : Program κ) (a : Alone κ) (out : Output) : Prop where
  begins : ∀ n b, Steps p n a b → out.take (b.output false).length = b.output false
  all : ∀ n b answer, EndsIn p n a b answer → out = .finite (b.output false)

theorem step_output {b : Alone κ} (step : a.step p = some b) (e : Bool) :
    a.output e <+: b.output e := by
  cases act : p.act a.state with
  | write e' ch next =>
    obtain rfl : _ = b := by simpa [Alone.step, act] using step
    by_cases same : e = e'
    · subst same
      simp
    · simp [same]
  | compute next | read next | exit answer =>
    simp only [Alone.step, act] at step
    cases step
    try exact List.prefix_rfl

theorem Steps.output {n : Nat} {b : Alone κ} (steps : Steps p n a b) (e : Bool) :
    a.output e <+: b.output e := by
  induction steps with
  | refl a => exact List.prefix_rfl
  | next first _ ih => exact (step_output first e).trans ih

theorem Steps.later {n m : Nat} {b c : Alone κ} {answer : WaitAnswer} (steps : Steps p n a b)
    (ends : EndsIn p m a c answer) : ∃ k, EndsIn p k b c answer := by
  induction steps generalizing m with
  | refl a => exact ⟨m, ends⟩
  | next first _ ih =>
    obtain ⟨taken, exits⟩ := ends
    cases taken with
    | refl =>
      rw [step_exit exits] at first
      contradiction
    | next first' later =>
      obtain rfl := Option.some.inj (first.symm.trans first')
      exact ih ⟨later, exits⟩

theorem EndsIn.writes {m : Nat} {c : Alone κ} {answer : WaitAnswer} (ends : EndsIn p m a c answer) :
    Writes p a (.finite (c.output false)) where
  begins n b steps := by
    obtain ⟨k, later, _⟩ := steps.later ends
    obtain ⟨more, whole⟩ := later.output false
    simp [Output.take, ← whole]
  all n b answer' ends' := by
    obtain ⟨k, later, _⟩ := ends'.1.later ends
    cases later with
    | refl => rfl
    | next first _ =>
      rw [step_exit ends'.2] at first
      contradiction

end Alone

/-- `interrupt` is what SIGINT does to the program. -/
structure Interruptible (κ : Type) extends Program κ where
  interrupt : κ → κ

/-- What the main thread is in: the constructor, a read that still waits for `n` bytes, the reads
of `wait`, `m_process.wait()`, or `m_msg_thread.join()`. `todo` are the reads to come. -/
inductive DecoderPhase where
  | constructs (todo : List Nat)
  | idle (todo : List Nat)
  | reads (n : Nat) (todo : List Nat)
  | drains (n : Option Nat)
  | waits
  | joins (res : Int)
  | destroyed (res : Int)
deriving DecidableEq, Repr

/-- The destructor has not waited for the process yet. -/
def DecoderPhase.owns : DecoderPhase → Bool
  | .joins _ | .destroyed _ => false
  | _ => true

def DecoderPhase.between : DecoderPhase → Bool
  | .idle _ | .reads _ _ | .drains _ => true
  | _ => false

def DecoderPhase.signalled : DecoderPhase → Bool
  | .constructs _ | .idle _ | .reads _ _ => false
  | _ => true

def DecoderPhase.todo (got : Bytes) : DecoderPhase → List Nat
  | .constructs todo | .idle todo => todo
  | .reads n todo => (got.length + n) :: todo
  | _ => []

def DecoderPhase.current (got : Bytes) : DecoderPhase → Bytes
  | .reads _ _ => got
  | _ => []

/-- The stream `child_stdout` is `good`. `got` is what the read has so far, and `results` is what
the reads before it gave. -/
structure Decoding (κ : Type) where
  child : Child κ
  stdinOpen : Bool
  pipes : Bool → Bytes
  good : Bool
  got : Bytes
  results : List Bytes
  msgs : Pipe Bytes
  finished : Bool
  main : DecoderPhase
  process : ProcessImpl

namespace Decoding

open Exec (round_stringstream leave_stringstream round_stringstream_weight)

variable {κ : Type}

def start (pid : Int) (k : κ) (todo : List Nat) : Decoding κ where
  child := .runs k
  stdinOpen := true
  pipes _ := []
  good := true
  got := []
  results := []
  msgs := ⟨[], true, [], []⟩
  finished := false
  main := .constructs todo
  process := .start pid

def interrupted (p : Interruptible κ) : Child κ → Child κ
  | .runs k => .runs (p.interrupt k)
  | .gone answer => .gone answer

/-- The loop of `wait` goes on if the last read, which still waited for `n` of 4096 bytes, has
got some. -/
def afterDrain (n : Nat) : DecoderPhase := if n < 4096 then .drains none else .waits

inductive Step (p : Interruptible κ) (capacity : Nat) : Decoding κ → Decoding κ → Prop where
  | close {s : Decoding κ} {todo : List Nat} (main : s.main = .constructs todo) :
      Step p capacity s { s with stdinOpen := false, main := .idle todo }
  | call {s : Decoding κ} {n : Nat} {todo : List Nat} (main : s.main = .idle (n :: todo))
      (good : s.good = true) : Step p capacity s { s with got := [], main := .reads n todo }
  | callEnded {s : Decoding κ} {n : Nat} {todo : List Nat} (main : s.main = .idle (n :: todo))
      (ended : s.good = false) :
      Step p capacity s { s with results := s.results ++ [[]], main := .idle todo }
  | take {s : Decoding κ} {n : Nat} {todo : List Nat} {ch : UInt8} {rest : Bytes}
      (main : s.main = .reads (n + 1) todo) (there : s.pipes false = ch :: rest) :
      Step p capacity s { s with
        pipes := Function.update s.pipes false rest
        got := s.got ++ [ch]
        main := .reads n todo }
  | full {s : Decoding κ} {todo : List Nat} (main : s.main = .reads 0 todo) :
      Step p capacity s { s with results := s.results ++ [s.got], main := .idle todo }
  | short {s : Decoding κ} {n : Nat} {todo : List Nat} {answer : WaitAnswer}
      (main : s.main = .reads (n + 1) todo) (empty : s.pipes false = [])
      (gone : s.child = .gone answer) :
      Step p capacity s { s with
        good := false
        results := s.results ++ [s.got]
        main := .idle todo }
  | signal {s : Decoding κ} (main : s.main = .idle []) :
      Step p capacity s { s with
        child := interrupted p s.child
        process := (s.process.signal 2 true).1
        main := .drains none }
  | drain {s : Decoding κ} (main : s.main = .drains none) (good : s.good = true) :
      Step p capacity s { s with main := .drains (some 4096) }
  | drained {s : Decoding κ} (main : s.main = .drains none) (ended : s.good = false) :
      Step p capacity s { s with main := .waits }
  | drainTake {s : Decoding κ} {n : Nat} {ch : UInt8} {rest : Bytes}
      (main : s.main = .drains (some (n + 1))) (there : s.pipes false = ch :: rest) :
      Step p capacity s { s with
        pipes := Function.update s.pipes false rest
        main := .drains (some n) }
  | drainFull {s : Decoding κ} (main : s.main = .drains (some 0)) :
      Step p capacity s { s with main := .drains none }
  | drainShort {s : Decoding κ} {n : Nat} {answer : WaitAnswer}
      (main : s.main = .drains (some (n + 1))) (empty : s.pipes false = [])
      (gone : s.child = .gone answer) :
      Step p capacity s { s with good := false, main := afterDrain (n + 1) }
  | wait {s : Decoding κ} {answer : WaitAnswer} {process : ProcessImpl} {res : Int}
      (main : s.main = .waits) (gone : s.child = .gone answer)
      (waited : s.process.wait answer = (process, .ok res)) :
      Step p capacity s { s with main := .joins res, process := process }
  | join {s : Decoding κ} {res : Int} (main : s.main = .joins res) (done : s.finished = true) :
      Step p capacity s { s with main := .destroyed res }
  | compute {s : Decoding κ} {k next : κ} (runs : s.child = .runs k) (act : p.act k = .compute next) :
      Step p capacity s { s with child := .runs next }
  | readEnd {s : Decoding κ} {k : κ} {next : Option UInt8 → κ} (runs : s.child = .runs k)
      (act : p.act k = .read next) (closed : s.stdinOpen = false) :
      Step p capacity s { s with child := .runs (next none) }
  | write {s : Decoding κ} {k next : κ} {e : Bool} {ch : UInt8} (runs : s.child = .runs k)
      (act : p.act k = .write e ch next) (room : (s.pipes e).length < capacity) :
      Step p capacity s { s with
        child := .runs next
        pipes := Function.update s.pipes e (s.pipes e ++ [ch]) }
  | exit {s : Decoding κ} {k : κ} {answer : WaitAnswer} (runs : s.child = .runs k)
      (act : p.act k = .exit answer) : Step p capacity s { s with child := .gone answer }
  | pipe {s : Decoding κ} {ch : UInt8} {rest : Bytes} (going : s.finished = false)
      (there : s.pipes true = ch :: rest) :
      Step p capacity s { s with
        pipes := Function.update s.pipes true rest
        msgs := ({ s.msgs with source := [ch] } : Pipe Bytes).round stringstream }
  | pipeEnd {s : Decoding κ} {answer : WaitAnswer} (going : s.finished = false)
      (empty : s.pipes true = []) (gone : s.child = .gone answer) :
      Step p capacity s { s with
        msgs := Exec.leave stringstream (s.msgs.round stringstream)
        finished := true }

structure Alive (s : Decoding κ) : Prop where
  closed : (∀ todo, s.main ≠ .constructs todo) → s.stdinOpen = false
  ended : s.good = false → (∃ answer, s.child = .gone answer) ∧ s.pipes false = []
  drained : s.main = .waits ∨ s.main.owns = false → s.good = false
  source : s.msgs.source = []
  finished : s.finished = true → (∃ answer, s.child = .gone answer) ∧ s.pipes true = []
  process : s.main.owns = true → s.process.pid ≠ 0
  joined : ∀ res, s.main = .destroyed res → s.finished = true
  reaps : ∀ answer, s.child = .gone answer → answer.reaps = true

section Safety

variable {p : Interruptible κ} {capacity : Nat} {pid : Int} {s t : Decoding κ}

theorem Alive.start (positive : pid ≠ 0) (k : κ) (todo : List Nat) : (start pid k todo).Alive where
  closed other := absurd rfl (other todo)
  ended bad := by simp [Decoding.start] at bad
  drained later := by simp [Decoding.start, DecoderPhase.owns] at later
  source := rfl
  finished done := by simp [Decoding.start] at done
  process _ := positive
  joined res main := by simp [Decoding.start] at main
  reaps answer gone := by simp [Decoding.start] at gone

theorem Alive.child {k next : κ} {pipes : Bool → Bytes} (alive : s.Alive) (runs : s.child = .runs k) :
    Alive { s with child := .runs next, pipes := pipes } where
  closed := alive.closed
  ended bad := by simpa [runs] using (alive.ended bad).1
  drained := alive.drained
  source := alive.source
  finished done := by simpa [runs] using (alive.finished done).1
  process := alive.process
  joined := alive.joined
  reaps answer gone := by simp at gone

theorem Alive.goes {main : DecoderPhase} {got : Bytes} {results : List Bytes} (alive : s.Alive)
    (between : s.main.between = true) (still : main.owns = true)
    (drained : main = .waits → s.good = false) :
    Alive { s with got := got, results := results, main := main } where
  closed _ := alive.closed fun todo before => by simp [before, DecoderPhase.between] at between
  ended := alive.ended
  drained later := later.elim drained (by simp [still])
  source := alive.source
  finished := alive.finished
  process _ := alive.process (by
    cases before : s.main <;> simp_all [DecoderPhase.between, DecoderPhase.owns])
  joined res destroyed := by
    simp only at destroyed
    simp [destroyed, DecoderPhase.owns] at still
  reaps := alive.reaps

theorem Alive.takes {ch : UInt8} {rest : Bytes} (alive : s.Alive) (there : s.pipes false = ch :: rest) :
    Alive { s with pipes := Function.update s.pipes false rest } where
  closed := alive.closed
  ended bad := absurd (alive.ended bad).2 (by simp [there])
  drained := alive.drained
  source := alive.source
  finished done := by simpa using alive.finished done
  process := alive.process
  joined := alive.joined
  reaps := alive.reaps

theorem Alive.ends {answer : WaitAnswer} (alive : s.Alive) (empty : s.pipes false = [])
    (gone : s.child = .gone answer) : Alive { s with good := false } where
  closed := alive.closed
  ended _ := ⟨⟨answer, gone⟩, empty⟩
  drained _ := rfl
  source := alive.source
  finished := alive.finished
  process := alive.process
  joined := alive.joined
  reaps := alive.reaps

theorem Alive.step (alive : s.Alive) (step : Step p capacity s t) : t.Alive := by
  cases step with
  | close main => exact {
      closed := fun _ => rfl
      ended := alive.ended
      drained := by simp [DecoderPhase.owns]
      source := alive.source
      finished := alive.finished
      process := fun _ => alive.process (by simp [main, DecoderPhase.owns])
      joined := by simp
      reaps := alive.reaps }
  | call main good => exact alive.goes (main ▸ rfl) rfl (by simp)
  | callEnded main ended =>
    exact alive.goes (main ▸ rfl) rfl (by simp)
  | take main there =>
    exact (alive.takes there).goes (main ▸ rfl) rfl (by simp)
  | full main => exact alive.goes (main ▸ rfl) rfl (by simp)
  | short main empty gone =>
    exact (alive.ends empty gone).goes (main ▸ rfl) rfl
      (by simp)
  | signal main => exact {
      closed := fun _ => alive.closed (by simp [main])
      ended := fun bad => by
        obtain ⟨⟨answer, gone⟩, empty⟩ := alive.ended bad
        exact ⟨⟨answer, by simp [gone, interrupted]⟩, empty⟩
      drained := by simp [DecoderPhase.owns]
      source := alive.source
      finished := fun done => by
        obtain ⟨⟨answer, gone⟩, empty⟩ := alive.finished done
        exact ⟨⟨answer, by simp [gone, interrupted]⟩, empty⟩
      process := fun _ => alive.process (main ▸ rfl)
      joined := by simp
      reaps := fun answer gone => by
        cases child : s.child with
        | runs k => simp [child, interrupted] at gone
        | gone answer' => exact alive.reaps answer (by simpa [child, interrupted] using gone) }
  | drain main good => exact alive.goes (main ▸ rfl) rfl (by simp)
  | drained main ended =>
    exact alive.goes (main ▸ rfl) rfl (fun _ => ended)
  | drainTake main there =>
    exact (alive.takes there).goes (main ▸ rfl) rfl (by simp)
  | drainFull main => exact alive.goes (main ▸ rfl) rfl (by simp)
  | drainShort main empty gone =>
    refine (alive.ends empty gone).goes (main ▸ rfl) ?_
      (fun _ => rfl)
    unfold afterDrain
    split <;> rfl
  | wait main gone waited => exact {
      closed := fun _ => alive.closed (by simp [main])
      ended := alive.ended
      drained := fun _ => alive.drained (.inl main)
      source := alive.source
      finished := alive.finished
      process := by simp [DecoderPhase.owns]
      joined := by simp
      reaps := alive.reaps }
  | join main done => exact {
      closed := fun _ => alive.closed (by simp [main])
      ended := alive.ended
      drained := fun _ => alive.drained (.inr (main ▸ rfl))
      source := alive.source
      finished := alive.finished
      process := by simp [DecoderPhase.owns]
      joined := fun _ _ => done
      reaps := alive.reaps }
  | compute runs act => exact alive.child runs
  | readEnd runs act closed => exact alive.child runs
  | write runs act room => exact alive.child runs
  | exit runs act => exact {
      alive with
      ended := fun bad => by simpa [runs] using (alive.ended bad).1
      finished := fun done => by simpa [runs] using (alive.finished done).1
      reaps := fun answer gone => by
        cases gone
        exact p.exits _ _ act }
  | @pipe ch rest going there => exact {
      alive with
      ended := fun bad => by simpa using alive.ended bad
      source := (round_stringstream s.msgs ch).2
      finished := fun done => by simp [going] at done }
  | pipeEnd going empty gone => exact {
      alive with
      source := (leave_stringstream alive.source).2.2
      finished := fun _ => ⟨⟨_, gone⟩, empty⟩
      joined := fun _ _ => rfl }

/-- The child is the program, with nothing to read. -/
structure Tracks (p : Program κ) (s : Decoding κ) (a : Alone κ) : Prop where
  state : ∀ k, s.child = .runs k → a.state = k
  exited : ∀ answer, s.child = .gone answer → p.act a.state = .exit answer
  input : a.input = []

/-- Before the signal the reads have got what the program has written. -/
structure Reads (p : Program κ) (first : Alone κ) (ns : List Nat) (out : Output) (s : Decoding κ)
    (past : List Nat) (a : Alone κ) : Prop extends Tracks p s a where
  steps : ∃ n, Alone.Steps p n first a
  split : ns = past ++ s.main.todo s.got
  results : s.results = out.cuts past
  rest : out.rest past = out.drop s.results.flatten.length
  written : a.output false = s.results.flatten ++ (s.main.current s.got ++ s.pipes false)

variable {first a : Alone κ} {ns past : List Nat} {out : Output}

theorem Reads.start {k : κ} : Reads p.toProgram ⟨k, [], fun _ => []⟩ ns out (start pid k ns) []
    ⟨k, [], fun _ => []⟩ where
  state k' runs := by simpa [Decoding.start] using runs
  steps := ⟨0, .refl _⟩
  exited answer gone := by simp [Decoding.start] at gone
  input := rfl
  split := rfl
  results := rfl
  rest := (Output.drop_zero out).symm
  written := rfl

theorem Reads.begins (writes : Alone.Writes p.toProgram first out)
    (reads : Reads p.toProgram first ns out s past a) :
    (out.rest past).take (s.main.current s.got ++ s.pipes false).length =
      s.main.current s.got ++ s.pipes false := by
  obtain ⟨n, steps⟩ := reads.steps
  rw [reads.rest]
  exact (Output.take_append (reads.written ▸ writes.begins n a steps)).2

theorem Reads.all {answer : WaitAnswer} (writes : Alone.Writes p.toProgram first out)
    (reads : Reads p.toProgram first ns out s past a) (gone : s.child = .gone answer) :
    out.rest past = .finite (s.main.current s.got ++ s.pipes false) := by
  obtain ⟨n, steps⟩ := reads.steps
  rw [reads.rest, writes.all n a answer ⟨steps, reads.exited answer gone⟩, reads.written]
  simp [Output.drop]

theorem Reads.returns {n : Nat} {todo : List Nat} {got : Bytes} {good : Bool}
    (reads : Reads p.toProgram first ns out s past a) (next : s.main.todo s.got = n :: todo)
    (taken : (out.rest past).take n = got)
    (left : (out.rest past).drop n = (out.rest past).drop got.length)
    (current : s.main.current s.got = got) :
    Reads p.toProgram first ns out
      { s with good := good, results := s.results ++ [got], main := .idle todo } (past ++ [n]) a where
  steps := reads.steps
  state := reads.state
  exited := reads.exited
  input := reads.input
  split := by
    rw [reads.split, next]
    simp [DecoderPhase.todo]
  results := by rw [Output.cuts_concat, taken, reads.results]
  rest := by
    rw [Output.rest_concat, left, reads.rest, Output.drop_drop]
    simp
  written := by
    rw [reads.written, current]
    simp [DecoderPhase.current]

theorem Reads.child {a' : Alone κ} {next : κ} {pipes : Bool → Bytes}
    (reads : Reads p.toProgram first ns out s past a)
    (step : a.step p.toProgram = some a') (state : a'.state = next) (input : a'.input = [])
    (written : ∀ before, a.output false = before ++ s.pipes false →
      a'.output false = before ++ pipes false) :
    Reads p.toProgram first ns out { s with child := .runs next, pipes := pipes } past a' where
  steps := by
    obtain ⟨n, steps⟩ := reads.steps
    exact ⟨n + 1, steps.snoc step⟩
  state k' runs' := state.trans (Child.runs.inj runs')
  exited answer gone := by simp at gone
  input := input
  split := reads.split
  results := reads.results
  rest := reads.rest
  written := (written (s.results.flatten ++ s.main.current s.got)
    (by rw [reads.written, List.append_assoc])).trans (List.append_assoc _ _ _)

theorem Reads.step (alive : s.Alive) (writes : Alone.Writes p.toProgram first out)
    (reads : Reads p.toProgram first ns out s past a) (step : Step p capacity s t)
    (unsignalled : t.main.signalled = false) :
    ∃ past' a', Reads p.toProgram first ns out t past' a' := by
  have begins := reads.begins writes
  cases step with
  | close main =>
    exact ⟨past, a, { reads with
      split := by simpa [main, DecoderPhase.todo] using reads.split
      written := by simpa [main, DecoderPhase.current] using reads.written }⟩
  | call main good =>
    exact ⟨past, a, { reads with
      split := by simpa [main, DecoderPhase.todo] using reads.split
      written := by simpa [main, DecoderPhase.current] using reads.written }⟩
  | @callEnded n todo main ended =>
    obtain ⟨⟨answer, gone⟩, empty⟩ := alive.ended ended
    have nothing : out.rest past = .finite [] := by
      simpa [main, empty, DecoderPhase.current] using reads.all writes gone
    exact ⟨past ++ [n], a, reads.returns (main ▸ rfl) (by simp [nothing, Output.take])
      (by simp [nothing, Output.drop]) (main ▸ rfl)⟩
  | @take n todo ch rest main there =>
    refine ⟨past, a, { reads with
      split := ?_
      written := by simp [reads.written, main, there, DecoderPhase.current] }⟩
    rw [reads.split, main]
    simp only [DecoderPhase.todo, List.length_append, List.length_singleton]
    rw [Nat.add_assoc, Nat.add_comm 1 n]
  | @full todo main =>
    have current : s.main.current s.got = s.got := main ▸ rfl
    exact ⟨past ++ [s.got.length], a, reads.returns (main ▸ rfl)
      (Output.take_append (current ▸ begins)).1 rfl current⟩
  | @short n todo answer main empty gone =>
    have current : s.main.current s.got = s.got := main ▸ rfl
    have all : out.rest past = .finite s.got := by
      simpa [current, empty] using reads.all writes gone
    exact ⟨past ++ [s.got.length + (n + 1)], a, reads.returns (main ▸ rfl)
      (by
        rw [all, Output.take]
        exact List.take_of_length_le (by omega))
      (by simp [all, Output.drop]) current⟩
  | signal | drain | drained | drainTake | drainFull | wait | join =>
    simp [DecoderPhase.signalled] at unsignalled
  | @drainShort n =>
    simp only [afterDrain] at unsignalled
    split at unsignalled <;> simp [DecoderPhase.signalled] at unsignalled
  | @compute k next runs act =>
    exact ⟨past, { a with state := next },
      reads.child (by simp [Alone.step, reads.state k runs, act]) rfl reads.input
        (fun _ written => written)⟩
  | @readEnd k next runs act closed =>
    exact ⟨past, { a with state := next none },
      reads.child (by simp [Alone.step, reads.state k runs, act, reads.input]) rfl reads.input
        (fun _ written => written)⟩
  | @write k next e ch runs act room =>
    refine ⟨past, { a with
        state := next
        output := Function.update a.output e (a.output e ++ [ch]) },
      reads.child (by simp [Alone.step, reads.state k runs, act]) rfl reads.input
        (fun before written => ?_)⟩
    cases e with
    | false => simp [written]
    | true => simpa using written
  | @exit k answer runs act =>
    exact ⟨past, a, { reads with
      state := fun k' runs' => by simp at runs'
      exited := fun answer' gone => by
        cases gone
        rw [reads.state k runs, act] }⟩
  | pipe going there => exact ⟨past, a, { reads with written := by simpa using reads.written }⟩
  | pipeEnd going empty gone => exact ⟨past, a, { reads with }⟩

theorem results_after (signalled : s.main.signalled = true) (step : Step p capacity s t) :
    t.main.signalled = true ∧ t.results = s.results := by
  cases step with
  | close main | call main | callEnded main | take main | full main | short main | signal main =>
    simp [main, DecoderPhase.signalled] at signalled
  | drainShort main empty gone =>
    refine ⟨?_, rfl⟩
    simp only [afterDrain]
    split <;> rfl
  | drain | drained | drainTake | drainFull | wait | join => exact ⟨rfl, rfl⟩
  | compute | readEnd | write | exit | pipe | pipeEnd => exact ⟨signalled, rfl⟩

theorem results_signal (reads : Reads p.toProgram first ns out s past a) (step : Step p capacity s t)
    (unsignalled : s.main.signalled = false) (signalled : t.main.signalled = true) :
    t.results = out.cuts ns := by
  cases step with
  | signal main =>
    have all : ns = past := by simpa [main, DecoderPhase.todo] using reads.split
    rw [all]
    exact reads.results
  | close | call | callEnded | take | full | short => simp [DecoderPhase.signalled] at signalled
  | drain main | drained main | drainTake main | drainFull main | drainShort main | wait main
  | join main => simp [main, DecoderPhase.signalled] at unsignalled
  | compute | readEnd | write | exit | pipe | pipeEnd => simp [unsignalled] at signalled

def Got (p : Program κ) (first : Alone κ) (ns : List Nat) (out : Output) (s : Decoding κ) : Prop :=
  (s.main.signalled = false ∧ ∃ past a, Reads p first ns out s past a) ∨
    (s.main.signalled = true ∧ s.results = out.cuts ns)

theorem Got.step (alive : s.Alive) (writes : Alone.Writes p.toProgram first out)
    (got : Got p.toProgram first ns out s) (step : Step p capacity s t) :
    Got p.toProgram first ns out t := by
  rcases got with ⟨unsignalled, past, a, reads⟩ | ⟨signalled, results⟩
  · cases after : t.main.signalled with
    | false => exact .inl ⟨after, reads.step alive writes step after⟩
    | true => exact .inr ⟨after, results_signal reads step unsignalled after⟩
  · obtain ⟨after, same⟩ := results_after signalled step
    exact .inr ⟨after, same.trans results⟩

end Safety

end Decoding

end HttpAudioServer

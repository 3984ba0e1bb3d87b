import HttpAudioServer.Library.Run
import HttpAudioServer.Stream

/-! The process class and the part of the decoder class that handles its process. What the
operating system answers comes with each call. -/
namespace HttpAudioServer

inductive WaitAnswer where
  | failed
  | unchanged
  | exited (exitstatus : Nat)
  | signaled (termsig : Nat)
  | otherChange
deriving DecidableEq, Repr

/-- The child is gone, and its pid with it. -/
def WaitAnswer.reaps : WaitAnswer → Bool
  | .exited _ | .signaled _ => true
  | .failed | .unchanged | .otherChange => false

inductive SysCall where
  | waitpid (pid : Int) (block : Bool) (answer : WaitAnswer)
  | kill (pid : Int) (signal : Int)
deriving DecidableEq, Repr

def SysCall.reaps : SysCall → Bool
  | .waitpid _ _ answer => answer.reaps
  | .kill _ _ => false

/-- `calls` is not in the code: the system calls made so far. -/
structure ProcessImpl where
  pid : Int
  exitcode : Int := 0
  calls : List SysCall := []

namespace ProcessImpl

def start (pid : Int) : ProcessImpl where
  pid := pid

/-- Whether the child runs, or the exception. The answer is not asked for once the child is
known to be gone. -/
def updateStatus (p : ProcessImpl) (block : Bool) (answer : WaitAnswer) :
    ProcessImpl × Except Exn Bool :=
  if p.pid = 0 then (p, .ok false)
  else
    let p := { p with calls := p.calls ++ [.waitpid p.pid block answer] }
    match answer with
    | .failed => (p, .error ⟨"Error while querying child state!"⟩)
    | .unchanged => (p, .ok true)
    | .exited exitstatus => ({ p with exitcode := exitstatus, pid := 0 }, .ok false)
    | .signaled termsig => ({ p with exitcode := -termsig, pid := 0 }, .ok false)
    -- This was another state change
    | .otherChange => (p, .ok true)

def running (p : ProcessImpl) (answer : WaitAnswer) : ProcessImpl × Except Exn Bool :=
  p.updateStatus false answer

def wait (p : ProcessImpl) (answer : WaitAnswer) : ProcessImpl × Except Exn Int :=
  match p.updateStatus true answer with
  | (p, .ok _) => (p, .ok p.exitcode)
  | (p, .error e) => (p, .error e)

/-- `sent` says whether `kill` returns 0. -/
def signal (p : ProcessImpl) (signal : Int) (sent : Bool) : ProcessImpl × Bool :=
  ({ p with calls := p.calls ++ [.kill p.pid signal] }, sent)

end ProcessImpl

inductive ProcessOp where
  | running (answer : WaitAnswer)
  | wait (answer : WaitAnswer)
  | exitcode
  | signal (signal : Int) (sent : Bool)
deriving DecidableEq, Repr

inductive Returned where
  | bool (b : Bool)
  | int (i : Int)
  | threw (e : Exn)
deriving DecidableEq, Repr

namespace ProcessImpl

def step (p : ProcessImpl) : ProcessOp → Option (ProcessImpl × Returned)
  | .running answer =>
    match p.running answer with
    | (p, .ok b) => some (p, .bool b)
    | (p, .error e) => some (p, .threw e)
  | .wait answer =>
    match p.wait answer with
    | (p, .ok i) => some (p, .int i)
    | (p, .error e) => some (p, .threw e)
  | .exitcode => some (p, .int p.exitcode)
  | .signal signal sent =>
    let (p, b) := p.signal signal sent
    some (p, .bool b)

abbrev run : ProcessImpl → List ProcessOp → Option (ProcessImpl × List Returned) := Run.run step

end ProcessImpl

/-- The decoder and its process: `input` is what `read` reads from. -/
structure DecoderImpl where
  process : ProcessImpl
  input : Decoder

/-- An interrupted process may still write something before it closes its output. -/
def Decoder.interrupt (dec : Decoder) (left : Bytes) : Decoder :=
  if good : dec.good = true then
    { dec with stdout := .finite left, eof := fun ended => by simp [good] at ended }
  else dec

namespace DecoderImpl

def start (pid : Int) (output : Output) : DecoderImpl where
  process := .start pid
  input := .start output

structure Draining where
  input : Decoder
  nBytesRead : Nat

def drainRound (l : Draining) : Draining :=
  let (nBytesRead, _, input) := l.input.read 4096 []
  ⟨input, nBytesRead⟩

/-- The loop of `wait`, which reads until nothing comes. -/
def drain (input : Decoder) : Imperative.Outcome Empty Draining :=
  Imperative.doWhile (fun l => decide (0 < l.nBytesRead)) (fun l => .done (drainRound l))
    input.stdout.bytes.length ⟨input, 0⟩

/-- `DecoderImpl::wait`: the process is sent SIGINT, writes `left`, and is waited for. -/
def wait (d : DecoderImpl) (left : Bytes) (sent : Bool) (answer : WaitAnswer) :
    Option (DecoderImpl × Except Exn Int) :=
  let (process, _) := d.process.signal 2 sent
  (drain (d.input.interrupt left)).result?.map fun l =>
    let (process, res) := process.wait answer
    (⟨process, l.input⟩, res)

end DecoderImpl

inductive DecoderOp where
  | read (nBytes : Nat)
  | wait (left : Bytes) (sent : Bool) (answer : WaitAnswer)

/-- The last call, after which there is no other one: a destruction, in which the process is
waited for twice, or any call that sends the signal and then never returns. -/
inductive DecoderEnd where
  | destroy (left : Bytes) (sent : Bool) (answer answer' : WaitAnswer)
  | hang (sent : Bool)

namespace DecoderImpl

def step (d : DecoderImpl) : DecoderOp → Option (DecoderImpl × Except Exn Int)
  | .read nBytes =>
    let (nBytesRead, _, input) := d.input.read nBytes []
    some ({ d with input := input }, .ok nBytesRead)
  | .wait left sent answer => d.wait left sent answer

abbrev run : DecoderImpl → List DecoderOp → Option (DecoderImpl × List (Except Exn Int)) :=
  Run.run step

def finish (d : DecoderImpl) : DecoderEnd → Option DecoderImpl
  | .destroy left sent answer answer' =>
    (d.wait left sent answer).map fun (d, res) =>
      match res with
      | .ok _ => { d with process := (d.process.wait answer').1 }
      -- A destructor that throws ends the program
      | .error _ => d
  | .hang sent => some { d with process := (d.process.signal 2 sent).1 }

end DecoderImpl

end HttpAudioServer

import HttpAudioServer.Decoder
import HttpAudioServer.Library.Imperative

/-! The copy of an input stream to an output stream, piece by piece. Of the output stream only
what is asked of it is known. -/
namespace HttpAudioServer

structure Ostream (ω : Type) where
  good : ω → Bool
  write : Bytes → ω → ω
  flush : ω → ω

/-- The variables of `generic_pipe`: what is left of the source and whether it is good, the
bytes of the buffer below `buf_ptr`, and the output. -/
structure Pipe (ω : Type) where
  source : Bytes
  good : Bool
  buf : Bytes
  output : ω

namespace Pipe

variable {ω : Type} (out : Ostream ω)

def send (l : Pipe ω) : Pipe ω :=
  { l with buf := [], output := out.flush (out.write l.buf l.output) }

def round (l : Pipe ω) : Pipe ω :=
  match l.source with
  | [] => { l with good := false }
  | c :: source =>
    let l := { l with source := source, buf := l.buf ++ [c] }
    if l.buf.length = 4096 ∨ c = 10 ∨ c = 13 then l.send out else l

/-- Each round but the last takes a byte of the source. -/
def rounds (l : Pipe ω) : Imperative.Outcome Empty (Pipe ω) :=
  Imperative.whileLoop (fun l => l.good && out.good l.output) (fun l => .done (l.round out))
    (l.source.length + 1) l

end Pipe

/-- A file that cannot be opened is a source that is not good. -/
def genericPipe {ω : Type} (out : Ostream ω) (source : Option Bytes) (output : ω) : Option ω :=
  ((Pipe.rounds out ⟨source.getD [], source.isSome, [], output⟩).map fun l =>
    if 0 < l.buf.length ∧ out.good l.output = true then (l.send out).output else l.output).result?

namespace Pipe

variable {ω : Type} (out : Ostream ω)

/-- Lowered by each round, the last one included. -/
def remaining (l : Pipe ω) : Nat := l.source.length + l.good.toNat

theorem round_remaining {l : Pipe ω} (good : l.good = true) :
    (l.round out).remaining < l.remaining := by
  unfold round remaining
  cases source : l.source with
  | nil => simp [good]
  | cons c rest =>
    simp only [List.length_cons]
    split
    · simp [send, good]
    · simp [good]

theorem rounds_ends (l : Pipe ω) : ∃ l', rounds out l = .done l' := by
  have loop : (rounds out l).Ends (fun l => True ∧ (l.good && out.good l.output) = false)
      (fun _ _ => False) := by
    apply Imperative.whileLoop_ends (fun _ => True) remaining
    · intro l _ go
      have good : l.good = true := (Bool.and_eq_true_iff.mp go).1
      simp [remaining, good]
    · intro l _ go
      exact ⟨trivial, round_remaining out (Bool.and_eq_true_iff.mp go).1⟩
    · trivial
    · exact Nat.add_le_add_left l.good.toNat_le _
  obtain ⟨l', ended, _⟩ := loop.done
  exact ⟨l', ended⟩

end Pipe

theorem genericPipe_ends {ω : Type} (out : Ostream ω) (source : Option Bytes) (output : ω) :
    ∃ output', genericPipe out source output = some output' := by
  obtain ⟨l, ended⟩ := Pipe.rounds_ends out ⟨source.getD [], source.isSome, [], output⟩
  rw [genericPipe, ended]
  exact ⟨_, rfl⟩

end HttpAudioServer

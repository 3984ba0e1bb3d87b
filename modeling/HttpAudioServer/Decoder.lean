import Mathlib.Data.List.Basic
import Mathlib.Data.Stream.Init

/-! The decoder class: the standard output of an ffmpeg process, read on demand. -/
namespace HttpAudioServer

abbrev Bytes := List UInt8

/-- What an ffmpeg process writes before it closes its standard output, if it ever does. -/
inductive Output where
  | finite (bytes : Bytes)
  | endless (bytes : Stream' UInt8)

namespace Output

def take (n : Nat) : Output → Bytes
  | finite bytes => bytes.take n
  | endless bytes => bytes.take n

def drop (n : Nat) : Output → Output
  | finite bytes => finite (bytes.drop n)
  | endless bytes => endless (bytes.drop n)

def bytes : Output → Bytes
  | finite bytes => bytes
  | endless _ => []

theorem length_take_le (n : Nat) (o : Output) : (o.take n).length ≤ n := by
  cases o with
  | finite bytes => exact List.length_take_le n bytes
  | endless bytes => simp [take]

theorem drop_of_short {n : Nat} {o : Output} (short : (o.take n).length ≠ n) :
    o.drop n = finite [] := by
  cases o with
  | finite bytes =>
    have exhausted : bytes.length ≤ n := by
      simp only [take, List.length_take] at short
      omega
    simp [drop, exhausted]
  | endless bytes => simp [take] at short

end Output

/-- One call of `read`: what was asked for and what came, with the position it came from. -/
structure Read where
  offset : Nat
  requested : Nat
  got : Bytes
deriving DecidableEq, Repr

/-- The input stream of a decoder. `log` is not in the code: it records the calls of `read`. -/
structure Decoder where
  stdout : Output
  good : Bool
  log : List Read
  eof : good = false → stdout = .finite []

namespace Decoder

def start (output : Output) : Decoder where
  stdout := output
  good := true
  log := []
  eof := by simp

def delivered (dec : Decoder) : Bytes := dec.log.flatMap Read.got

/-- `DecoderImpl::read`: appends to `tar`, and says how many bytes came. The stream
stops being good when it ends before `nBytes` have come. -/
def read (dec : Decoder) (nBytes : Nat) (tar : Bytes) : Nat × Bytes × Decoder :=
  if dec.good then
    let got := dec.stdout.take nBytes
    (got.length, tar ++ got,
      { stdout := dec.stdout.drop nBytes
        good := decide (got.length = nBytes)
        log := dec.log ++ [⟨dec.delivered.length, nBytes, got⟩]
        eof := fun short => Output.drop_of_short (of_decide_eq_false short) })
  else
    (0, tar, { dec with log := dec.log ++ [⟨dec.delivered.length, nBytes, []⟩] })

theorem read_spec (dec : Decoder) (nBytes : Nat) (tar : Bytes) :
    ∃ next, dec.read nBytes tar =
        ((dec.stdout.take nBytes).length, tar ++ dec.stdout.take nBytes, next) ∧
      next.stdout = dec.stdout.drop nBytes ∧
      next.log = dec.log ++ [⟨dec.delivered.length, nBytes, dec.stdout.take nBytes⟩] := by
  by_cases good : dec.good = true
  · simp [read, good]
  · have ended : dec.stdout = .finite [] := dec.eof (by simpa using good)
    simp [read, good, ended, Output.take, Output.drop]

end Decoder

end HttpAudioServer

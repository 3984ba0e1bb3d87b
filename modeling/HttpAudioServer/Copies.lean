import HttpAudioServer.Pipe

/-! What `generic_pipe` passes on: the source, in pieces that end with their lines, as far as
the output stays good. -/
namespace HttpAudioServer

variable {ω : Type}

def Ostream.recorded (out : Ostream ω) : Ostream (ω × List Bytes) where
  good o := out.good o.1
  write s o := (out.write s o.1, o.2 ++ [s])
  flush o := (out.flush o.1, o.2)

def endsLine (ch : UInt8) : Bool := ch = 10 || ch = 13

/-- A piece that need not wait for more: it fills the buffer, or a line ends with it. -/
def Prompt (piece : Bytes) : Prop :=
  piece.length = 4096 ∨ ∃ ch ∈ piece.getLast?, endsLine ch = true

namespace Pipe

variable (out : Ostream ω)

/-- What the loop keeps at its head. -/
structure Copying (source : Bytes) (l : Pipe (ω × List Bytes)) : Prop where
  copied : l.output.2.flatten ++ l.buf ++ l.source = source
  sizes : ∀ piece ∈ l.output.2, 1 ≤ piece.length ∧ piece.length ≤ 4096
  prompt : ∀ piece ∈ l.output.2, Prompt piece
  room : l.buf.length < 4096
  quiet : ∀ ch ∈ l.buf, endsLine ch = false
  drained : l.good = false → l.source = []

variable {out} {source : Bytes} {l : Pipe (ω × List Bytes)}

theorem Copying.round (copying : Copying source l) : Copying source (l.round out.recorded) := by
  cases left : l.source with
  | nil =>
    have same : l.round out.recorded = { l with good := false } := by
      simp only [Pipe.round, left]
    rw [same]
    exact ⟨copying.copied, copying.sizes, copying.prompt, copying.room, copying.quiet, fun _ => left⟩
  | cons c rest =>
    have copied := copying.copied
    rw [left, List.append_cons] at copied
    have length : (l.buf ++ [c]).length = l.buf.length + 1 := List.length_append
    have good : l.good = false → rest = [] := by
      intro ended
      have nothing := left.symm.trans (copying.drained ended)
      contradiction
    by_cases sends : (l.buf ++ [c]).length = 4096 ∨ c = 10 ∨ c = 13
    · have same : l.round out.recorded =
          { l with
            source := rest
            buf := []
            output := out.recorded.flush (out.recorded.write (l.buf ++ [c]) l.output) } := by
        simp only [Pipe.round, left, if_pos sends, Pipe.send]
      have prompt : Prompt (l.buf ++ [c]) := by
        rcases sends with full | line
        · exact .inl full
        · exact .inr ⟨c, by simp, by simpa [endsLine] using line⟩
      have room := copying.room
      rw [same]
      refine ⟨?_, ?_, ?_, Nat.zero_lt_succ _, by simp, good⟩
      · simpa [Ostream.recorded] using copied
      · exact List.forall_mem_append.mpr
          ⟨copying.sizes, List.forall_mem_singleton.mpr ⟨by omega, by omega⟩⟩
      · exact List.forall_mem_append.mpr ⟨copying.prompt, List.forall_mem_singleton.mpr prompt⟩
    · have same : l.round out.recorded = { l with source := rest, buf := l.buf ++ [c] } := by
        simp only [Pipe.round, left, if_neg sends]
      have quiet : endsLine c = false := by
        simp only [not_or] at sends
        simp [endsLine, sends.2]
      have room := copying.room
      rw [same]
      refine ⟨?_, copying.sizes, copying.prompt, ?_, ?_, good⟩
      · simpa using copied
      · simp only [not_or] at sends
        change (l.buf ++ [c]).length < 4096
        omega
      · exact List.forall_mem_append.mpr ⟨copying.quiet, List.forall_mem_singleton.mpr quiet⟩

theorem copying_start (source : Bytes) (o : ω) :
    Copying source (⟨source, true, [], (o, [])⟩ : Pipe (ω × List Bytes)) where
  copied := rfl
  sizes := by simp
  prompt := by simp
  room := Nat.zero_lt_succ _
  quiet := by simp
  drained := by simp

theorem rounds_copying (out : Ostream ω) (copying : Copying source l) :
    ∃ l', rounds out.recorded l = .done l' ∧ Copying source l' ∧
      (l'.good && out.good l'.output.1) = false := by
  have loop : (rounds out.recorded l).Ends
      (fun l => Copying source l ∧ (l.good && out.recorded.good l.output) = false)
      (fun _ _ => False) := by
    apply Imperative.whileLoop_ends (Copying source) remaining
    · intro l _ go
      have good : l.good = true := (Bool.and_eq_true_iff.mp go).1
      simp [remaining, good]
    · exact fun l copying go =>
        ⟨copying.round, round_remaining out.recorded (Bool.and_eq_true_iff.mp go).1⟩
    · exact copying
    · exact Nat.add_le_add_left l.good.toNat_le _
  obtain ⟨l', ended, copying', stop⟩ := loop.done
  exact ⟨l', ended, copying', stop⟩

def plain (l : Pipe (ω × List Bytes)) : Pipe ω := ⟨l.source, l.good, l.buf, l.output.1⟩

theorem plain_round (out : Ostream ω) (l : Pipe (ω × List Bytes)) :
    l.plain.round out = (l.round out.recorded).plain := by
  unfold Pipe.round plain
  cases l.source with
  | nil => rfl
  | cons c rest =>
    simp only
    split <;> rfl

theorem plain_rounds (out : Ostream ω) (l : Pipe (ω × List Bytes)) :
    rounds out l.plain = (rounds out.recorded l).map plain := by
  have conds (l : Pipe (ω × List Bytes)) : (fun l : Pipe ω => l.good && out.good l.output) l.plain =
      (l.good && out.recorded.good l.output) := rfl
  have bodies (l : Pipe (ω × List Bytes)) :
      (fun l : Pipe ω => (.done (l.round out) : Imperative.Outcome Empty _)) l.plain =
        (Imperative.Outcome.done (l.round out.recorded)).map plain :=
    congrArg Imperative.Outcome.done (plain_round out l)
  exact Imperative.whileLoop_map conds bodies _ _

end Pipe

theorem genericPipe_recorded (out : Ostream ω) (source : Option Bytes) (o : ω)
    (pieces : List Bytes) :
    genericPipe out source o =
      (genericPipe out.recorded source (o, pieces)).map Prod.fst := by
  have same : Pipe.rounds out ⟨source.getD [], source.isSome, [], o⟩ = _ :=
    Pipe.plain_rounds out ⟨source.getD [], source.isSome, [], (o, pieces)⟩
  obtain ⟨l, ended⟩ :=
    Pipe.rounds_ends out.recorded ⟨source.getD [], source.isSome, [], (o, pieces)⟩
  rw [ended] at same
  rw [genericPipe, genericPipe, ended, same]
  change some (if 0 < l.buf.length ∧ out.good l.output.1 = true then _ else _) =
    some (Prod.fst (if 0 < l.buf.length ∧ out.good l.output.1 = true then _ else _))
  split <;> rfl

/-- A faithful copy, for any source and any output. The pieces are a prefix of the source, and
the whole of it if the output is good in the end. All of them but the last are prompt, and what
waits at the head of the loop is less than a buffer and has no end of a line. -/
theorem genericPipe_copies (out : Ostream ω) (source : Bytes) (o : ω) :
    ∃ o' pieces, genericPipe out.recorded (some source) (o, []) = some (o', pieces) ∧
      genericPipe out (some source) o = some o' ∧
      pieces.flatten <+: source ∧
      (out.good o' = true → pieces.flatten = source) ∧
      (∀ piece ∈ pieces, 1 ≤ piece.length ∧ piece.length ≤ 4096) ∧
      (∀ piece ∈ pieces.dropLast, Prompt piece) ∧
      ∀ l, Imperative.Rounds (fun l : Pipe (ω × List Bytes) => l.good && out.good l.output.1)
        (fun l => (.done (l.round out.recorded) : Imperative.Outcome Empty _))
        ⟨source, true, [], (o, [])⟩ l → l.buf.length < 4096 ∧ ∀ ch ∈ l.buf, endsLine ch = false := by
  have start := Pipe.copying_start source o
  obtain ⟨l, ended, copying, stop⟩ := Pipe.rounds_copying out start
  have heads : ∀ l, Imperative.Rounds
      (fun l : Pipe (ω × List Bytes) => l.good && out.good l.output.1)
      (fun l => (.done (l.round out.recorded) : Imperative.Outcome Empty _))
      ⟨source, true, [], (o, [])⟩ l → l.buf.length < 4096 ∧ ∀ ch ∈ l.buf, endsLine ch = false := by
    intro l begins
    have kept : Pipe.Copying source l :=
      begins.keep (Pipe.Copying source) (fun _ _ => False) start fun l copying _ => copying.round
    exact ⟨kept.room, kept.quiet⟩
  have copied := copying.copied
  rw [List.append_assoc] at copied
  have pipes : genericPipe out.recorded (some source) (o, []) = some
      (if 0 < l.buf.length ∧ out.good l.output.1 = true then (l.send out.recorded).output
        else l.output) := by
    rw [genericPipe, Option.getD_some, Option.isSome_some, ended]
    rfl
  have plain := genericPipe_recorded out (some source) o []
  by_cases last : 0 < l.buf.length ∧ out.good l.output.1 = true
  · have empty : l.source = [] := copying.drained (by simpa [last.2] using stop)
    have whole : (l.output.2 ++ [l.buf]).flatten = source := by
      rw [empty, List.append_nil] at copied
      simpa using copied
    have room := copying.room
    rw [if_pos last] at pipes
    rw [pipes] at plain
    refine ⟨_, l.output.2 ++ [l.buf], pipes, plain, ?_, fun _ => whole, ?_, ?_, heads⟩
    · exact whole ▸ List.prefix_refl _
    · exact List.forall_mem_append.mpr
        ⟨copying.sizes, List.forall_mem_singleton.mpr ⟨last.1, by omega⟩⟩
    · rw [List.dropLast_concat]
      exact copying.prompt
  · rw [if_neg last] at pipes
    rw [pipes] at plain
    refine ⟨_, _, pipes, plain, ⟨_, copied⟩, fun good => ?_, copying.sizes,
      fun piece member => copying.prompt piece (List.dropLast_subset _ member), heads⟩
    have empty : l.source = [] := copying.drained (by simpa [good] using stop)
    have none_waits : l.buf = [] := by
      by_contra some_wait
      exact last ⟨List.length_pos_iff.mpr some_wait, good⟩
    rw [empty, none_waits, List.append_nil, List.append_nil] at copied
    exact copied

end HttpAudioServer

import HttpAudioServer.Library.Run
import Mathlib.Data.List.ReduceOption

/-! Messages that come in pieces, and pieces that have parts of several messages. A receiver
holds what has come and is not used up, as far as there is room for it, and is shown to take a
message however it is cut: what it makes of one piece decides what it makes of all. -/
namespace Pieces

variable {σ α μ : Type}

/-- The receiver holds what has come of the bytes `w` as long as some of them are still to come. -/
def Waits (step : σ → List α → Option (σ × Option μ)) (holds : List α → σ → Prop) (room : Nat)
    (w : List α) : Prop :=
  ∀ past piece rest s, past ++ piece ++ rest = w → rest ≠ [] → (past ++ piece).length < room →
    holds past s → ∃ t, step s piece = some (t, none) ∧ holds (past ++ piece) t

/-- When the last piece of the message `w` comes, the receiver hands over `m`, and holds what
there is of the piece after the message. -/
structure Takes (step : σ → List α → Option (σ × Option μ)) (holds : List α → σ → Prop) (room : Nat)
    (w : List α) (m : μ) (after : List α → σ → Prop) : Prop where
  more : Waits step holds room w
  last : ∀ past piece surplus s, past ++ piece = w ++ surplus → (past ++ piece).length < room →
    holds past s → ∃ t, step s piece = some (t, some m) ∧ after surplus t

/-- There is room for a piece that comes in. -/
def Fits (holds : List α → σ → Prop) (room : Nat) (s : σ) (piece : List α) : Prop :=
  ∀ past, holds past s → (past ++ piece).length < room

/-- No piece has a part of two messages. -/
def Cuts (w : List α) (pieces : List (List α)) : Prop := pieces.flatten = w ∧ pieces ≠ []

variable {step : σ → List α → Option (σ × Option μ)} {holds : List α → σ → Prop} {room : Nat}
  {w : List α} {m : μ} {after : List α → σ → Prop}

theorem Waits.run (waits : Waits step holds room w) {pieces : List (List α)}
    {past rest : List α} {s : σ} (held : holds past s) (all : past ++ pieces.flatten ++ rest = w)
    (unfinished : rest ≠ []) (fits : (past ++ pieces.flatten).length < room) :
    ∃ t, Run.run step s pieces = some (t, List.replicate pieces.length none) ∧
      holds (past ++ pieces.flatten) t := by
  induction pieces generalizing past s with
  | nil => exact ⟨s, rfl, by simpa using held⟩
  | cons piece pieces ih =>
    have split : past ++ piece ++ (pieces.flatten ++ rest) = w := by
      rw [← all, List.flatten_cons]
      simp only [List.append_assoc]
    rw [List.flatten_cons, ← List.append_assoc] at fits
    have now : (past ++ piece).length < room := by
      rw [List.length_append] at fits
      omega
    obtain ⟨t, stepped, kept⟩ := waits past piece _ s split (by simp [unfinished]) now held
    obtain ⟨u, ran, still⟩ := ih kept (by rw [List.append_assoc _ pieces.flatten, split]) fits
    refine ⟨u, ?_, by rwa [List.flatten_cons, ← List.append_assoc]⟩
    rw [Run.run_cons stepped, ran]
    rfl

/-- However the message is cut, it is handed over with its last piece and not before. -/
theorem Takes.run (takes : Takes step holds room w m after) {pieces : List (List α)} {s : σ}
    (held : holds [] s) (nonempty : ∀ piece ∈ pieces, piece ≠ []) (cuts : Cuts w pieces)
    (fits : w.length < room) :
    ∃ t, Run.run step s pieces =
      some (t, List.replicate (pieces.length - 1) none ++ [some m]) ∧ after [] t := by
  obtain ⟨all, some_piece⟩ := cuts
  obtain ⟨earlier, piece, rfl⟩ := (List.eq_nil_or_concat pieces).resolve_left some_piece
  rw [List.concat_eq_append] at all nonempty ⊢
  have last : piece ≠ [] := nonempty piece (by simp)
  have split : [] ++ earlier.flatten ++ piece = w := by simp [← all]
  have earlier_fits : ([] ++ earlier.flatten).length < room := by
    have length := congrArg List.length split
    rw [List.length_append] at length
    omega
  obtain ⟨u, waited, kept⟩ := takes.more.run held split last earlier_fits
  obtain ⟨t, stepped, finished⟩ :=
    takes.last _ piece [] u (by rw [split, List.append_nil]) (by rwa [split]) kept
  refine ⟨t, ?_, finished⟩
  rw [Run.run_append_eq_some]
  refine ⟨u, _, [some m], waited, ?_, by simp⟩
  rw [Run.run_cons stepped]
  rfl

/-- One message after the other, cut in any way. What is handed over are the messages in their
order, and what is not used up is what there is of the later ones. -/
theorem run_reads {messages : List (List α × μ)} {reads : List (List α)}
    (takes : ∀ x ∈ messages, Takes step holds room x.1 x.2 holds)
    (nonempty : ∀ piece ∈ reads, piece ≠ []) {past unread : List α} {s : σ} (held : holds past s)
    (fits : Run.Along step (Fits holds room) s reads)
    (all : past ++ reads.flatten ++ unread = (messages.map Prod.fst).flatten) :
    ∃ t outs handed left kept, Run.run step s reads = some (t, outs) ∧
      messages = handed ++ left ∧ outs.reduceOption = handed.map Prod.snd ∧ holds kept t ∧
      kept ++ unread = (left.map Prod.fst).flatten := by
  induction reads generalizing messages past s with
  | nil => exact ⟨s, [], [], messages, past, rfl, rfl, rfl, held, by simpa using all⟩
  | cons piece reads ih =>
    obtain ⟨first, others⟩ := List.forall_mem_cons.mp nonempty
    have now := fits.head past held
    rw [List.flatten_cons, ← List.append_assoc] at all
    cases messages with
    | nil => simp [first] at all
    | cons x messages =>
      obtain ⟨taken, later⟩ := List.forall_mem_cons.mp takes
      rw [List.map_cons, List.flatten_cons, List.append_assoc] at all
      rcases List.append_eq_append_iff.mp all with ⟨rest, whole, remaining⟩ | ⟨surplus, whole, remaining⟩
      · by_cases complete : rest = []
        · subst complete
          rw [List.append_nil] at whole
          obtain ⟨t, stepped, kept⟩ := taken.last past piece [] s (by simp [whole]) now held
          obtain ⟨u, outs, handed, left, keeps, ran, split, same, keep, rest⟩ :=
            ih later others kept (fits.tail stepped) (by simpa using remaining)
          refine ⟨u, some x.2 :: outs, x :: handed, left, keeps, ?_, by rw [split]; rfl, ?_, keep,
            rest⟩
          · rw [Run.run_cons stepped, ran]
            rfl
          · simp [same]
        · obtain ⟨t, stepped, kept⟩ := taken.more past piece rest s whole.symm complete now held
          have still : past ++ piece ++ reads.flatten ++ unread =
              ((x :: messages).map Prod.fst).flatten := by
            rw [List.map_cons, List.flatten_cons, whole]
            simp [remaining]
          obtain ⟨u, outs, handed, left, keeps, ran, split, same, keep, rest⟩ :=
            ih takes others kept (fits.tail stepped) still
          refine ⟨u, none :: outs, handed, left, keeps, ?_, split, by simp [same], keep, rest⟩
          rw [Run.run_cons stepped, ran]
          rfl
      · obtain ⟨t, stepped, kept⟩ := taken.last past piece surplus s whole now held
        obtain ⟨u, outs, handed, left, keeps, ran, split, same, keep, rest⟩ :=
          ih later others kept (fits.tail stepped) (by rw [remaining]; simp)
        refine ⟨u, some x.2 :: outs, x :: handed, left, keeps, ?_, by rw [split]; rfl, ?_, keep,
          rest⟩
        · rw [Run.run_cons stepped, ran]
          rfl
        · simp [same]

/-- One message after the other, each in pieces of its own, on a receiver that is ready for the
next one when it has handed over the last. -/
theorem run_messages {messages : List (List α × μ)} {cuts : List (List (List α))}
    (takes : ∀ x ∈ messages, Takes step holds room x.1 x.2 holds)
    (fits : ∀ x ∈ messages, x.1.length < room)
    (cut : List.Forall₂ (fun x pieces => Cuts x.1 pieces) messages cuts)
    (nonempty : ∀ piece ∈ cuts.flatten, piece ≠ []) {s : σ} (held : holds [] s) :
    ∃ t outs, Run.run step s cuts.flatten = some (t, outs) ∧
      outs.reduceOption = messages.map Prod.snd ∧ holds [] t := by
  induction cut generalizing s with
  | nil => exact ⟨s, [], rfl, rfl, held⟩
  | @cons x pieces messages cuts first later ih =>
    rw [List.flatten_cons] at nonempty ⊢
    obtain ⟨these, those⟩ := List.forall_mem_append.mp nonempty
    obtain ⟨taken, others⟩ := List.forall_mem_cons.mp takes
    obtain ⟨own, small⟩ := List.forall_mem_cons.mp fits
    obtain ⟨u, ran, ready⟩ := taken.run held these first own
    obtain ⟨t, outs, rest, handed, kept⟩ := ih others small those ready
    refine ⟨t, List.replicate (pieces.length - 1) none ++ [some x.2] ++ outs, ?_, ?_, kept⟩
    · rw [Run.run_append_eq_some]
      exact ⟨u, _, outs, ran, rest, rfl⟩
    · rw [List.reduceOption_append, List.reduceOption_append, List.reduceOption_replicate_none, handed]
      rfl

end Pieces

import HttpAudioServer.Library.Schedule
import Mathlib.Data.List.Basic
import Mathlib.Logic.Function.Basic

/-! The file descriptors of the processes: what the constructor of `ProcessImpl` opens, passes on and
closes, with any number of objects and of children that have not reached their program yet. -/
namespace HttpAudioServer

/-- The ends of the three pipes of process `j`: `which` is 0, 1 or 2 as for the standard streams. -/
inductive Target where
  | std (fd : Nat)
  | pipe (j : Nat) (which : Nat) (writes : Bool)
deriving DecidableEq, Repr

structure Slot where
  target : Target
  cloexec : Bool
deriving DecidableEq, Repr

abbrev Table := Nat → Option Slot

namespace Table

def close (t : Table) (fds : List Nat) : Table := fun fd => if fd ∈ fds then none else t fd

/-- `pipe2` with `O_CLOEXEC`. -/
def pipe2 (t : Table) (j which r w : Nat) : Table :=
  Function.update (Function.update t r (some ⟨.pipe j which false, true⟩)) w
    (some ⟨.pipe j which true, true⟩)

def dup2 (t : Table) (old new : Nat) : Table :=
  Function.update t new ((t old).map fun s => { s with cloexec := false })

def execvp (t : Table) : Table := fun fd => (t fd).filter fun s => !s.cloexec

end Table

/-- `m_child_stdout_pipe`, `m_child_stderr_pipe` and `m_child_stdin_pipe`, in the order in which they
are opened: the stream, and the two descriptors. -/
structure Pipes where
  stdoutR : Nat
  stdoutW : Nat
  stderrR : Nat
  stderrW : Nat
  stdinR : Nat
  stdinW : Nat

namespace Pipes

def list (p : Pipes) : List (Nat × Nat × Nat) :=
  [(1, p.stdoutR, p.stdoutW), (2, p.stderrR, p.stderrW), (0, p.stdinR, p.stdinW)]

def fds (p : Pipes) : List Nat := [p.stdoutR, p.stdoutW, p.stderrR, p.stderrW, p.stdinR, p.stdinW]

/-- The ends that the parent closes after `fork`. -/
def childEnds (p : Pipes) : List Nat := [p.stdoutW, p.stderrW, p.stdinR]

end Pipes

def Table.openPipes (t : Table) (j : Nat) (l : List (Nat × Nat × Nat)) : Table :=
  l.foldl (fun t (which, r, w) => t.pipe2 j which r w) t

def Table.redirect (t : Table) (p : Pipes) : Table :=
  ((t.dup2 p.stdoutW 1).dup2 p.stderrW 2).dup2 p.stdinR 0

def slotsOf (j : Nat) (l : List (Nat × Nat × Nat)) : List (Nat × Slot) :=
  l.flatMap fun (which, r, w) => [(r, ⟨.pipe j which false, true⟩), (w, ⟨.pipe j which true, true⟩)]

inductive ChildProcess where
  | forked (t : Table)
  | running (t : Table)
  | gone

structure ProcessPipes where
  pipes : Pipes
  stdinOpen : Bool
  child : ChildProcess

def ProcessPipes.ends (j : Nat) (p : ProcessPipes) : List (Nat × Slot) :=
  [(p.pipes.stdoutR, ⟨.pipe j 1 false, true⟩), (p.pipes.stderrR, ⟨.pipe j 2 false, true⟩)] ++
    if p.stdinOpen then [(p.pipes.stdinW, ⟨.pipe j 0 true, true⟩)] else []

/-- `leaked` is not in the code: what constructors that threw have left open. -/
structure Descriptors where
  parent : Table
  processes : Nat → Option ProcessPipes
  leaked : List (Nat × Slot)
  next : Nat

namespace Descriptors

def start : Descriptors where
  parent fd := if fd < 3 then some ⟨.std fd, false⟩ else none
  processes _ := none
  leaked := []
  next := 0

/-- The parent and the children take turns in any order. The constructor is called with
`do_redirect`, and a process object is destroyed when its child has been waited for. -/
inductive Step : Descriptors → Descriptors → Prop where
  | create {s : Descriptors} (p : Pipes) (distinct : p.fds.Nodup)
      (unused : ∀ fd ∈ p.fds, s.parent fd = none) :
      Step s { s with
        parent := (s.parent.openPipes s.next p.list).close p.childEnds
        processes := Function.update s.processes s.next
          (some ⟨p, true, .forked (s.parent.openPipes s.next p.list)⟩)
        next := s.next + 1 }
  /-- Not all pipes can be opened, or `fork` fails. -/
  | fails {s : Descriptors} (p : Pipes) (n : Nat) (distinct : p.fds.Nodup)
      (unused : ∀ fd ∈ p.fds, s.parent fd = none) :
      Step s { s with
        parent := s.parent.openPipes s.next (p.list.take n)
        leaked := s.leaked ++ slotsOf s.next (p.list.take n)
        next := s.next + 1 }
  | execs {s : Descriptors} {j : Nat} {p : ProcessPipes} {t : Table}
      (process : s.processes j = some p) (forked : p.child = .forked t) :
      Step s { s with
        processes := Function.update s.processes j
          (some { p with child := .running (t.redirect p.pipes).execvp }) }
  | exits {s : Descriptors} {j : Nat} {p : ProcessPipes} (process : s.processes j = some p) :
      Step s { s with
        processes := Function.update s.processes j (some { p with child := .gone }) }
  | closeStdin {s : Descriptors} {j : Nat} {p : ProcessPipes} (process : s.processes j = some p)
      (opened : p.stdinOpen = true) :
      Step s { s with
        parent := s.parent.close [p.pipes.stdinW]
        processes := Function.update s.processes j (some { p with stdinOpen := false }) }
  | destroy {s : Descriptors} {j : Nat} {p : ProcessPipes} (process : s.processes j = some p)
      (gone : p.child = .gone) :
      Step s { s with
        parent := s.parent.close ((p.ends j).map Prod.fst)
        processes := Function.update s.processes j none }

def childTable (j : Nat) : Table
  | 0 => some ⟨.pipe j 0 false, false⟩
  | 1 => some ⟨.pipe j 1 true, false⟩
  | 2 => some ⟨.pipe j 2 true, false⟩
  | _ => none

def ChildKept (j : Nat) (p : Pipes) : ChildProcess → Prop
  | .forked t => (t p.stdoutW = some ⟨.pipe j 1 true, true⟩ ∧ t p.stderrW = some ⟨.pipe j 2 true, true⟩ ∧
      t p.stdinR = some ⟨.pipe j 0 false, true⟩) ∧
      (∀ fd ∈ p.childEnds, 3 ≤ fd) ∧ ∀ fd slot, 3 ≤ fd → t fd = some slot → slot.cloexec = true
  | .running t => t = childTable j
  | .gone => True

structure Kept (s : Descriptors) : Prop where
  std : ∀ fd < 3, s.parent fd = some ⟨.std fd, false⟩
  owned : ∀ fd slot, 3 ≤ fd → s.parent fd = some slot →
    (fd, slot) ∈ s.leaked ∨ ∃ j p, s.processes j = some p ∧ (fd, slot) ∈ p.ends j
  held : ∀ j p, s.processes j = some p → ∀ e ∈ p.ends j, 3 ≤ e.1 ∧ s.parent e.1 = some e.2
  leaks : ∀ e ∈ s.leaked, (3 ≤ e.1 ∧ s.parent e.1 = some e.2) ∧
    ∃ j which writes, e.2 = ⟨.pipe j which writes, true⟩ ∧ j < s.next ∧ s.processes j = none
  fresh : ∀ j p, s.processes j = some p → j < s.next
  child : ∀ j p, s.processes j = some p → ChildKept j p.pipes p.child

section Tables

variable {t : Table} {p : Pipes} {j : Nat}

theorem execvp_redirect (forked : ChildKept j p (.forked t)) :
    (t.redirect p).execvp = childTable j := by
  obtain ⟨⟨out, err, inp⟩, high, closed⟩ := forked
  simp only [Pipes.childEnds, List.forall_mem_cons] at high
  obtain ⟨out_high, err_high, in_high, _⟩ := high
  funext fd
  have out_ne : ∀ n < 3, p.stdoutW ≠ n := by omega
  have err_ne : ∀ n < 3, p.stderrW ≠ n := by omega
  have in_ne : ∀ n < 3, p.stdinR ≠ n := by omega
  match fd with
  | 0 => simp [Table.execvp, Table.redirect, Table.dup2, Function.update_apply, in_ne, inp, childTable]
  | 1 => simp [Table.execvp, Table.redirect, Table.dup2, Function.update_apply, out, childTable]
  | 2 => simp [Table.execvp, Table.redirect, Table.dup2, Function.update_apply, err_ne, err, childTable]
  | fd + 3 =>
    have same : (t.redirect p) (fd + 3) = t (fd + 3) := by
      simp [Table.redirect, Table.dup2, Function.update_apply]
    rw [Table.execvp, same]
    cases there : t (fd + 3) with
    | none => rfl
    | some slot => simp [closed (fd + 3) slot (by omega) there, childTable]

variable {l : List (Nat × Nat × Nat)} {fd : Nat} {slot : Slot}

theorem pipe2_other {which r w : Nat} (other_r : fd ≠ r) (other_w : fd ≠ w) :
    t.pipe2 j which r w fd = t fd := by
  simp [Table.pipe2, other_r, other_w]

theorem openPipes_other (other : fd ∉ (slotsOf j l).map Prod.fst) : t.openPipes j l fd = t fd := by
  induction l generalizing t with
  | nil => rfl
  | cons entry l ih =>
    obtain ⟨which, r, w⟩ := entry
    simp only [slotsOf, List.flatMap_cons, List.map_append, List.mem_append, List.map_cons,
      List.mem_cons, not_or] at other
    exact (ih other.2).trans (pipe2_other other.1.1 other.1.2.1)

theorem openPipes_mem (distinct : ((slotsOf j l).map Prod.fst).Nodup)
    (member : (fd, slot) ∈ slotsOf j l) : t.openPipes j l fd = some slot := by
  induction l generalizing t with
  | nil => simp [slotsOf] at member
  | cons entry l ih =>
    obtain ⟨which, r, w⟩ := entry
    have split : slotsOf j ((which, r, w) :: l) =
        [(r, ⟨.pipe j which false, true⟩), (w, ⟨.pipe j which true, true⟩)] ++ slotsOf j l := rfl
    rw [split, List.map_append, List.nodup_append] at distinct
    obtain ⟨pair, rest, apart⟩ := distinct
    simp only [List.map_cons, List.map_nil, List.nodup_cons, List.mem_singleton] at pair
    rw [split, List.mem_append] at member
    rcases member with first | later
    · have opened : t.pipe2 j which r w fd = some slot := by
        simp only [List.mem_cons, Prod.mk.injEq, List.not_mem_nil, or_false] at first
        rcases first with ⟨rfl, rfl⟩ | ⟨rfl, rfl⟩
        · simp [Table.pipe2, pair.1]
        · simp [Table.pipe2]
      have absent : fd ∉ (slotsOf j l).map Prod.fst := fun inside =>
        apart fd (List.mem_map_of_mem first) fd inside rfl
      exact (openPipes_other absent).trans opened
    · exact ih rest later

theorem openPipes_some (there : t.openPipes j l fd = some slot) :
    (fd, slot) ∈ slotsOf j l ∨ t fd = some slot := by
  induction l generalizing t with
  | nil => exact .inr there
  | cons entry l ih =>
    obtain ⟨which, r, w⟩ := entry
    rcases ih there with later | before
    · exact .inl (List.mem_append_right _ later)
    · by_cases same_w : fd = w
      · subst same_w
        simp only [Table.pipe2, Function.update_self, Option.some.injEq] at before
        subst before
        exact .inl (by simp [slotsOf])
      · by_cases same_r : fd = r
        · subst same_r
          simp only [Table.pipe2, Function.update_of_ne same_w, Function.update_self,
            Option.some.injEq] at before
          subst before
          exact .inl (by simp [slotsOf])
        · exact .inr ((pipe2_other same_r same_w).symm.trans before)

theorem target_of_slot (member : (fd, slot) ∈ slotsOf j l) :
    ∃ which writes, slot = ⟨.pipe j which writes, true⟩ := by
  obtain ⟨⟨which, r, w⟩, _, inside⟩ := List.mem_flatMap.mp member
  simp only [List.mem_cons, Prod.mk.injEq, List.not_mem_nil, or_false] at inside
  rcases inside with ⟨_, rfl⟩ | ⟨_, rfl⟩
  · exact ⟨which, false, rfl⟩
  · exact ⟨which, true, rfl⟩

theorem fds_list (j : Nat) (p : Pipes) : (slotsOf j p.list).map Prod.fst = p.fds := rfl

theorem fds_take (j n : Nat) (p : Pipes) :
    ((slotsOf j (p.list.take n)).map Prod.fst).Sublist p.fds := by
  have split : slotsOf j (p.list.take n) ++ slotsOf j (p.list.drop n) = slotsOf j p.list := by
    rw [slotsOf, slotsOf, ← List.flatMap_append, List.take_append_drop, slotsOf]
  rw [← fds_list j p, ← split]
  exact (List.sublist_append_left _ _).map _

end Tables

section Steps

variable {s t : Descriptors}

theorem kept_start : start.Kept where
  std fd low := by simp [start, low]
  owned fd slot high there := by
    have not_low : ¬ fd < 3 := by omega
    simp [start, not_low] at there
  held j p process := by simp [start] at process
  leaks e member := by simp [start] at member
  fresh j p process := by simp [start] at process
  child j p process := by simp [start] at process

theorem unused_high (kept : s.Kept) {fd : Nat} (unused : s.parent fd = none) : 3 ≤ fd := by
  by_contra low
  rw [kept.std fd (by omega)] at unused
  cases unused

theorem target_of_end {j fd : Nat} {slot : Slot} {p : ProcessPipes} (member : (fd, slot) ∈ p.ends j) :
    ∃ which writes, slot = ⟨.pipe j which writes, true⟩ := by
  simp only [ProcessPipes.ends, List.mem_append, List.mem_cons, Prod.mk.injEq, List.not_mem_nil,
    or_false] at member
  rcases member with (⟨_, rfl⟩ | ⟨_, rfl⟩) | inside
  · exact ⟨1, false, rfl⟩
  · exact ⟨2, false, rfl⟩
  · split at inside
    · simp only [List.mem_singleton, Prod.mk.injEq] at inside
      exact ⟨0, true, inside.2⟩
    · simp at inside

theorem cloexec_of_high (kept : s.Kept) {fd : Nat} {slot : Slot} (high : 3 ≤ fd)
    (there : s.parent fd = some slot) : slot.cloexec = true := by
  rcases kept.owned fd slot high there with leaked | ⟨j, p, _, held⟩
  · obtain ⟨_, _, _, _, rfl, _⟩ := kept.leaks _ leaked
    rfl
  · obtain ⟨_, _, rfl⟩ := target_of_end held
    rfl

theorem Kept.apart (kept : s.Kept) {i j fd : Nat} {x y : Slot} {p q : ProcessPipes}
    (process : s.processes i = some p) (process' : s.processes j = some q)
    (member : (fd, x) ∈ p.ends i) (member' : (fd, y) ∈ q.ends j) : i = j ∧ x = y := by
  have first := (kept.held i p process _ member).2
  have second := (kept.held j q process' _ member').2
  obtain rfl : x = y := Option.some.inj (first.symm.trans second)
  obtain ⟨which, writes, rfl⟩ := target_of_end member
  obtain ⟨which', writes', same⟩ := target_of_end member'
  simp only [Slot.mk.injEq, Target.pipe.injEq] at same
  exact ⟨same.1.1, rfl⟩

theorem Kept.closes (kept : s.Kept) {j : Nat} {p : ProcessPipes} {rest : Option ProcessPipes}
    {fds : List Nat} (process : s.processes j = some p)
    (closed : ∀ fd ∈ fds, ∃ slot, (fd, slot) ∈ p.ends j)
    (remains : ∀ e ∈ p.ends j, e.1 ∉ fds → ∃ q, rest = some q ∧ e ∈ q.ends j)
    (still : ∀ q, rest = some q → ChildKept j q.pipes q.child ∧
      ∀ e ∈ q.ends j, e ∈ p.ends j ∧ e.1 ∉ fds) :
    Kept { s with
      parent := s.parent.close fds
      processes := Function.update s.processes j rest } where
  std fd low := by
    have other : fd ∉ fds := by
      intro member
      obtain ⟨slot, held⟩ := closed fd member
      have high := (kept.held j p process _ held).1
      simp only at high
      omega
    simp [Table.close, other, kept.std fd low]
  owned fd slot high there := by
    by_cases member : fd ∈ fds
    · simp [Table.close, member] at there
    simp only [Table.close, member, if_false] at there
    rcases kept.owned fd slot high there with leaked | ⟨i, q, process', held⟩
    · exact .inl leaked
    · refine .inr ?_
      by_cases same : i = j
      · subst same
        obtain rfl := Option.some.inj (process.symm.trans process')
        obtain ⟨q, rfl, inside⟩ := remains _ held member
        exact ⟨i, q, by simp, inside⟩
      · exact ⟨i, q, by simpa [same] using process', held⟩
  held i q process' e member := by
    by_cases same : i = j
    · subst same
      obtain ⟨before, other⟩ := (still q (by simpa using process')).2 e member
      obtain ⟨high, there⟩ := kept.held i p process e before
      exact ⟨high, by simpa [Table.close, other] using there⟩
    · have process' : s.processes i = some q := by simpa [same] using process'
      obtain ⟨high, there⟩ := kept.held i q process' e member
      have other : e.1 ∉ fds := by
        intro inside
        obtain ⟨slot, held⟩ := closed e.1 inside
        exact same (kept.apart process' process member held).1
      exact ⟨high, by simpa [Table.close, other] using there⟩
  leaks e member := by
    obtain ⟨⟨high, there⟩, i, which, writes, target, before, missing⟩ := kept.leaks e member
    have different : i ≠ j := by
      rintro rfl
      rw [missing] at process
      cases process
    have other : e.1 ∉ fds := by
      intro inside
      obtain ⟨slot, held⟩ := closed e.1 inside
      have same := Option.some.inj (there.symm.trans (kept.held j p process _ held).2)
      obtain ⟨which', writes', rfl⟩ := target_of_end held
      rw [target] at same
      simp only [Slot.mk.injEq, Target.pipe.injEq] at same
      exact different same.1.1
    exact ⟨⟨high, by simpa [Table.close, other] using there⟩, i, which, writes, target, before,
      by simpa [different] using missing⟩
  fresh i q process' := by
    by_cases same : i = j
    · subst same
      exact kept.fresh i p process
    · exact kept.fresh i q (by simpa [same] using process')
  child i q process' := by
    by_cases same : i = j
    · subst same
      exact (still q (by simpa using process')).1
    · exact kept.child i q (by simpa [same] using process')

theorem Kept.goes (kept : s.Kept) {j : Nat} {p : ProcessPipes} {child : ChildProcess}
    (process : s.processes j = some p) (next : ChildKept j p.pipes child) :
    Kept { s with processes := Function.update s.processes j (some { p with child := child }) } := by
  have closes : Kept { s with
      parent := s.parent.close []
      processes := Function.update s.processes j (some { p with child := child }) } :=
    kept.closes process (by simp) (fun e member _ => ⟨_, rfl, member⟩) fun q same => by
      cases same
      exact ⟨next, fun e member => ⟨member, by simp⟩⟩
  have same : s.parent.close [] = s.parent := by
    funext fd
    simp [Table.close]
  rw [same] at closes
  exact closes

theorem Kept.opens (kept : s.Kept) (parent : Table) (new : List (Nat × Slot)) {fds : List Nat}
    (unused : ∀ fd ∈ fds, s.parent fd = none) (before : ∀ fd, fd ∉ fds → parent fd = s.parent fd)
    (opened : ∀ fd ∈ fds, ∀ slot, parent fd = some slot → (fd, slot) ∈ new) :
    (∀ fd < 3, parent fd = some ⟨.std fd, false⟩) ∧
    (∀ fd slot, 3 ≤ fd → parent fd = some slot → (fd, slot) ∈ new ∨ (fd, slot) ∈ s.leaked ∨
      ∃ j p, s.processes j = some p ∧ (fd, slot) ∈ p.ends j) ∧
    ∀ e : Nat × Slot, 3 ≤ e.1 ∧ s.parent e.1 = some e.2 → 3 ≤ e.1 ∧ parent e.1 = some e.2 := by
  refine ⟨fun fd low => ?_, fun fd slot high there => ?_, fun e ⟨high, there⟩ => ?_⟩
  · have other : fd ∉ fds := by
      intro member
      have high := unused_high kept (unused fd member)
      omega
    rw [before fd other, kept.std fd low]
  · by_cases member : fd ∈ fds
    · exact .inl (opened fd member slot there)
    · rw [before fd member] at there
      exact .inr (kept.owned fd slot high there)
  · have other : e.1 ∉ fds := by
      intro member
      rw [unused e.1 member] at there
      cases there
    exact ⟨high, (before e.1 other).trans there⟩

theorem mem_ends_create {j : Nat} {p : Pipes} {c : ChildProcess} (distinct : p.fds.Nodup)
    (e : Nat × Slot) :
    e ∈ ProcessPipes.ends j ⟨p, true, c⟩ ↔ e ∈ slotsOf j p.list ∧ e.1 ∉ p.childEnds := by
  simp only [Pipes.fds, List.nodup_cons, List.mem_cons, List.not_mem_nil, or_false, not_or] at distinct
  obtain ⟨fd, slot⟩ := e
  simp only [ProcessPipes.ends, if_true, slotsOf, Pipes.list, Pipes.childEnds, List.flatMap_cons,
    List.flatMap_nil, List.mem_append, List.mem_cons, List.not_mem_nil, or_false, Prod.mk.injEq]
  constructor
  · rintro ((⟨rfl, rfl⟩ | ⟨rfl, rfl⟩) | ⟨rfl, rfl⟩) <;> simp <;> omega
  · rintro ⟨inside, other⟩
    rcases inside with (⟨rfl, rfl⟩ | ⟨rfl, rfl⟩) | (⟨rfl, rfl⟩ | ⟨rfl, rfl⟩) | ⟨rfl, rfl⟩ | ⟨rfl, rfl⟩ <;>
      simp_all

theorem Kept.create (kept : s.Kept) {p : Pipes} (distinct : p.fds.Nodup)
    (unused : ∀ fd ∈ p.fds, s.parent fd = none) :
    Kept { s with
      parent := (s.parent.openPipes s.next p.list).close p.childEnds
      processes := Function.update s.processes s.next
        (some ⟨p, true, .forked (s.parent.openPipes s.next p.list)⟩)
      next := s.next + 1 } := by
  have high : ∀ fd ∈ p.fds, 3 ≤ fd := fun fd member => unused_high kept (unused fd member)
  have filled : ∀ e ∈ slotsOf s.next p.list,
      e.1 ∈ p.fds ∧ s.parent.openPipes s.next p.list e.1 = some e.2 := fun e member =>
    ⟨fds_list s.next p ▸ List.mem_map_of_mem member,
      openPipes_mem (fds_list s.next p ▸ distinct) member⟩
  have closed : ∀ fd, fd ∉ p.childEnds →
      ((s.parent.openPipes s.next p.list).close p.childEnds) fd =
        s.parent.openPipes s.next p.list fd := fun fd other => by simp [Table.close, other]
  have opens := kept.opens ((s.parent.openPipes s.next p.list).close p.childEnds)
    (ProcessPipes.ends s.next ⟨p, true, .forked (s.parent.openPipes s.next p.list)⟩) unused
    (fun fd other => by
      have child : fd ∉ p.childEnds := by
        simp only [Pipes.childEnds, Pipes.fds, List.mem_cons, not_or] at other ⊢
        tauto
      exact (closed fd child).trans (openPipes_other other))
    (fun fd member slot there => by
      by_cases child : fd ∈ p.childEnds
      · simp [Table.close, child] at there
      rw [closed fd child] at there
      rcases openPipes_some there with inside | before
      · exact (mem_ends_create distinct _).mpr ⟨inside, child⟩
      · rw [unused fd member] at before
        cases before)
  obtain ⟨std, owned, old⟩ := opens
  have other : ∀ {i q}, s.processes i = some q → i ≠ s.next := fun process same =>
    Nat.lt_irrefl _ (same ▸ kept.fresh _ _ process)
  exact {
    std := std
    owned := fun fd slot high there => by
      rcases owned fd slot high there with new | leaked | ⟨j, q, process, held⟩
      · exact .inr ⟨s.next, _, by simp, new⟩
      · exact .inl leaked
      · exact .inr ⟨j, q, by simpa [other process] using process, held⟩
    held := fun j q process e member => by
      by_cases same : j = s.next
      · subst same
        obtain rfl : _ = q := by simpa using process
        obtain ⟨inside, child⟩ := (mem_ends_create distinct e).mp member
        obtain ⟨used, there⟩ := filled e inside
        exact ⟨high e.1 used, (closed e.1 child).trans there⟩
      · exact old e (kept.held j q (by simpa [same] using process) e member)
    leaks := fun e member => by
      obtain ⟨there, j, which, writes, target, before, missing⟩ := kept.leaks e member
      have different : j ≠ s.next := Nat.ne_of_lt before
      exact ⟨old e there, j, which, writes, target, Nat.lt_succ_of_lt before,
        by simpa [different] using missing⟩
    fresh := fun j q process => by
      by_cases same : j = s.next
      · subst same
        exact Nat.lt_succ_self _
      · exact Nat.lt_succ_of_lt (kept.fresh j q (by simpa [same] using process))
    child := fun j q process => by
      by_cases same : j = s.next
      · subst same
        obtain rfl : _ = q := by simpa using process
        refine ⟨⟨(filled (p.stdoutW, _) ?_).2, (filled (p.stderrW, _) ?_).2,
          (filled (p.stdinR, _) ?_).2⟩, fun fd member => high fd ?_, fun fd slot above there => ?_⟩
        · simp [slotsOf, Pipes.list]
        · simp [slotsOf, Pipes.list]
        · simp [slotsOf, Pipes.list]
        · simp only [Pipes.childEnds, Pipes.fds, List.mem_cons] at member ⊢
          tauto
        · rcases openPipes_some there with inside | before
          · obtain ⟨_, _, rfl⟩ := target_of_slot inside
            rfl
          · exact cloexec_of_high kept above before
      · exact kept.child j q (by simpa [same] using process) }

theorem Kept.fails (kept : s.Kept) {p : Pipes} (n : Nat) (distinct : p.fds.Nodup)
    (unused : ∀ fd ∈ p.fds, s.parent fd = none) :
    Kept { s with
      parent := s.parent.openPipes s.next (p.list.take n)
      leaked := s.leaked ++ slotsOf s.next (p.list.take n)
      next := s.next + 1 } := by
  have part := fds_take s.next n p
  have filled : ∀ e ∈ slotsOf s.next (p.list.take n), e.1 ∈ p.fds ∧
      s.parent.openPipes s.next (p.list.take n) e.1 = some e.2 := fun e member =>
    ⟨part.subset (List.mem_map_of_mem member), openPipes_mem (distinct.sublist part) member⟩
  have opens := kept.opens (s.parent.openPipes s.next (p.list.take n))
    (slotsOf s.next (p.list.take n)) unused
    (fun fd other => openPipes_other fun inside => other (part.subset inside))
    (fun fd member slot there => by
      rcases openPipes_some there with inside | before
      · exact inside
      · rw [unused fd member] at before
        cases before)
  obtain ⟨std, owned, old⟩ := opens
  have missing : s.processes s.next = none := by
    cases process : s.processes s.next with
    | none => rfl
    | some q => exact absurd (kept.fresh _ _ process) (Nat.lt_irrefl _)
  exact {
    std := std
    owned := fun fd slot high there => by
      rcases owned fd slot high there with new | leaked | process
      · exact .inl (List.mem_append_right _ new)
      · exact .inl (List.mem_append_left _ leaked)
      · exact .inr process
    held := fun j q process e member => old e (kept.held j q process e member)
    leaks := fun e member => by
      rcases List.mem_append.mp member with before | new
      · obtain ⟨there, j, which, writes, target, below, missing⟩ := kept.leaks e before
        exact ⟨old e there, j, which, writes, target, Nat.lt_succ_of_lt below, missing⟩
      · obtain ⟨used, there⟩ := filled e new
        obtain ⟨which, writes, target⟩ := target_of_slot new
        exact ⟨⟨unused_high kept (unused e.1 used), there⟩, s.next, which, writes, target,
          Nat.lt_succ_self _, missing⟩
    fresh := fun j q process => Nat.lt_succ_of_lt (kept.fresh j q process)
    child := kept.child }

theorem Kept.step (kept : s.Kept) (step : Step s t) : t.Kept := by
  cases step with
  | create p distinct unused => exact kept.create distinct unused
  | fails p n distinct unused => exact kept.fails n distinct unused
  | @execs j p t process forked =>
    have before := kept.child j p process
    rw [forked] at before
    exact kept.goes process (execvp_redirect before)
  | exits process => exact kept.goes process trivial
  | @closeStdin j p process opened =>
    have stdin : (p.pipes.stdinW, (⟨.pipe j 0 true, true⟩ : Slot)) ∈ p.ends j := by
      simp [ProcessPipes.ends, opened]
    refine kept.closes process (fun fd member => ?_) (fun e member other => ⟨_, rfl, ?_⟩)
      (fun q same => ?_)
    · obtain rfl := List.mem_singleton.mp member
      exact ⟨_, stdin⟩
    · simp only [ProcessPipes.ends, opened, if_true, List.mem_append, List.mem_singleton] at member
      rcases member with reads | writes
      · exact List.mem_append_left _ reads
      · exact absurd (writes ▸ List.mem_singleton_self _) other
    · cases same
      refine ⟨kept.child j p process, fun e member => ?_⟩
      simp only [ProcessPipes.ends, Bool.false_eq_true, if_false, List.append_nil] at member
      have before : e ∈ p.ends j := List.mem_append_left _ member
      refine ⟨before, fun inside => ?_⟩
      obtain ⟨fd, slot⟩ := e
      obtain rfl := List.mem_singleton.mp inside
      obtain ⟨_, rfl⟩ := kept.apart process process before stdin
      simp at member
  | @destroy j p process gone =>
    refine kept.closes process (fun fd member => ?_) (fun e member other => ?_) (by simp)
    · obtain ⟨⟨fd', slot⟩, inside, rfl⟩ := List.mem_map.mp member
      exact ⟨slot, inside⟩
    · exact absurd (List.mem_map_of_mem member) other

end Steps

def Holds (s : Descriptors) (target : Target) : Prop :=
  (∃ fd cloexec, s.parent fd = some ⟨target, cloexec⟩) ∨
    ∃ i p t fd cloexec, s.processes i = some p ∧ (p.child = .forked t ∨ p.child = .running t) ∧
      t fd = some ⟨target, cloexec⟩

section Holders

variable {s : Descriptors}

theorem Kept.parent_iff (kept : s.Kept) {fd : Nat} {slot : Slot} (high : 3 ≤ fd) :
    s.parent fd = some slot ↔
      (fd, slot) ∈ s.leaked ∨ ∃ j p, s.processes j = some p ∧ (fd, slot) ∈ p.ends j := by
  constructor
  · exact kept.owned fd slot high
  · rintro (leaked | ⟨j, p, process, held⟩)
    · exact (kept.leaks _ leaked).1.2
    · exact (kept.held j p process _ held).2

theorem Kept.parent_pipe (kept : s.Kept) {j fd which : Nat} {writes cloexec : Bool} {p : ProcessPipes}
    (process : s.processes j = some p) (there : s.parent fd = some ⟨.pipe j which writes, cloexec⟩) :
    (fd, ⟨.pipe j which writes, cloexec⟩) ∈ p.ends j := by
  have high : 3 ≤ fd := by
    by_contra low
    rw [kept.std fd (by omega)] at there
    simp at there
  rcases kept.owned fd _ high there with leaked | ⟨i, q, process', held⟩
  · obtain ⟨_, i, _, _, target, _, missing⟩ := kept.leaks _ leaked
    simp only [Slot.mk.injEq, Target.pipe.injEq] at target
    rw [← target.1.1, process] at missing
    cases missing
  · obtain ⟨_, _, target⟩ := target_of_end held
    simp only [Slot.mk.injEq, Target.pipe.injEq] at target
    obtain rfl : j = i := target.1.1
    obtain rfl := Option.some.inj (process.symm.trans process')
    exact held

theorem Kept.holds (kept : s.Kept)
    (settled : ∀ i q t, s.processes i = some q → q.child ≠ .forked t) {j : Nat} {p : ProcessPipes}
    (process : s.processes j = some p) :
    (s.Holds (.pipe j 1 true) ↔ ∃ t, p.child = .running t) ∧
    (s.Holds (.pipe j 2 true) ↔ ∃ t, p.child = .running t) ∧
    (s.Holds (.pipe j 0 true) ↔ p.stdinOpen = true) := by
  have child : ∀ {i q t fd which writes cloexec}, s.processes i = some q →
      (q.child = .forked t ∨ q.child = .running t) →
      t fd = some ⟨.pipe j which writes, cloexec⟩ → childTable i fd = some ⟨.pipe j which writes, cloexec⟩ ∧
        q.child = .running t := by
    intro i q t fd which writes cloexec process' runs there
    have running := runs.resolve_left (settled i q t process')
    have table := kept.child i q process'
    rw [running] at table
    exact ⟨table ▸ there, running⟩
  have output : ∀ which, which = 1 ∨ which = 2 →
      (s.Holds (.pipe j which true) ↔ ∃ t, p.child = .running t) := by
    intro which either
    constructor
    · rintro (⟨fd, cloexec, there⟩ | ⟨i, q, t, fd, cloexec, process', runs, there⟩)
      · have held := kept.parent_pipe process there
        simp only [ProcessPipes.ends, List.mem_append, List.mem_cons, Prod.mk.injEq, Slot.mk.injEq,
          Target.pipe.injEq] at held
        split at held
        · simp at held
          omega
        · simp at held
      · obtain ⟨table, running⟩ := child process' runs there
        have same : i = j := by
          match fd with
          | 0 | 1 | 2 | fd + 3 => simp_all [childTable]
        subst same
        obtain rfl := Option.some.inj (process.symm.trans process')
        exact ⟨t, running⟩
    · rintro ⟨t, running⟩
      have table := kept.child j p process
      rw [running] at table
      refine .inr ⟨j, p, t, which, false, process, .inr running, ?_⟩
      rw [show t = childTable j from table]
      rcases either with rfl | rfl <;> rfl
  refine ⟨output 1 (.inl rfl), output 2 (.inr rfl), ?_, fun opened => ?_⟩
  · rintro (⟨fd, cloexec, there⟩ | ⟨i, q, t, fd, cloexec, process', runs, there⟩)
    · have held := kept.parent_pipe process there
      by_contra closed
      simp [ProcessPipes.ends, closed] at held
    · obtain ⟨table, _⟩ := child process' runs there
      match fd with
      | 0 | 1 | 2 | fd + 3 => simp [childTable] at table
  · have stdin : (p.pipes.stdinW, (⟨.pipe j 0 true, true⟩ : Slot)) ∈ p.ends j := by
      simp [ProcessPipes.ends, opened]
    exact .inl ⟨_, _, (kept.held j p process _ stdin).2⟩

/-- Over every run of constructors, children, `close_child_stdin` and destructors: a program starts
with its three ends and nothing else; the parent has open what its objects hold and what constructors
that threw have leaked; and as soon as no child is on its way to its program, the output of a process
is at its end if and only if its child is gone, and its input is if and only if it was closed. -/
theorem descriptors_kept {n : Nat} (path : Schedule.Path Step n start s) :
    (∀ j p t, s.processes j = some p → p.child = .running t → t = childTable j) ∧
    (∀ fd slot, 3 ≤ fd → (s.parent fd = some slot ↔
      (fd, slot) ∈ s.leaked ∨ ∃ j p, s.processes j = some p ∧ (fd, slot) ∈ p.ends j)) ∧
    ((∀ i q t, s.processes i = some q → q.child ≠ .forked t) → ∀ j p, s.processes j = some p →
      (s.Holds (.pipe j 1 true) ↔ ∃ t, p.child = .running t) ∧
      (s.Holds (.pipe j 2 true) ↔ ∃ t, p.child = .running t) ∧
      (s.Holds (.pipe j 0 true) ↔ p.stdinOpen = true)) := by
  have kept : s.Kept := path.keep Kept (fun _ _ kept step => kept.step step) kept_start
  refine ⟨fun j p t process running => ?_, fun fd slot high => kept.parent_iff high,
    fun settled j p process => kept.holds settled process⟩
  have table := kept.child j p process
  rw [running] at table
  exact table

/-- One process whose program has started. -/
theorem descriptors_kept_running :
    ∃ s p t, Schedule.Path Step 2 start s ∧ s.processes 0 = some p ∧ p.child = .running t ∧
      t = childTable 0 ∧ s.parent 3 = some ⟨.pipe 0 1 false, true⟩ := by
  have path : Schedule.Path Step 2 start _ :=
    ((Schedule.Path.refl start).next (.create ⟨3, 4, 5, 6, 7, 8⟩ (by decide)
      (by simp [Pipes.fds, start]))).next (.execs (j := 0) rfl rfl)
  obtain ⟨tables, _, _⟩ := descriptors_kept path
  exact ⟨_, _, _, path, rfl, rfl, tables 0 _ _ rfl rfl, rfl⟩

end Holders

end Descriptors

end HttpAudioServer

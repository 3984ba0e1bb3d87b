import HttpAudioServer.Decoding

/-! Reading from a decoder and destroying it comes to an end: none of the child, the main thread
and the thread of the messages waits for ever for another one. -/
namespace HttpAudioServer

/-- How much the main thread still has to do. A read of the destructor that has got something is
followed by another one. -/
def DecoderPhase.weight : DecoderPhase → Nat
  | .constructs todo | .reads _ todo => 3 * todo.length + 11
  | .idle todo => 3 * todo.length + 10
  | .drains none => 5
  | .drains (some n) => if n < 4096 then 6 else 4
  | .waits => 3
  | .joins _ => 2
  | .destroyed _ => 0

namespace Decoding

open Exec (round_stringstream leave_stringstream round_stringstream_weight)

variable {κ : Type} {p : Interruptible κ} {capacity : Nat} {pid : Int} {s t : Decoding κ}

def weight (s : Decoding κ) : Nat :=
  s.child.weight + s.main.weight + 3 * (s.pipes false).length +
    (3 * (s.pipes true).length + 2 * s.msgs.buf.length + (!s.finished).toNat)

section Progress

theorem Alive.moves (alive : s.Alive)
    (able : s.pipes false ≠ [] ∨ ∃ answer, s.child = .gone answer) (owns : s.main.owns = true) :
    ∃ t, Step p capacity s t := by
  have taken : s.pipes false = [] → ∃ answer, s.child = .gone answer := fun empty =>
    able.resolve_left (not_not.mpr empty)
  cases main : s.main with
  | constructs todo => exact ⟨_, .close main⟩
  | idle todo =>
    cases todo with
    | nil => exact ⟨_, .signal main⟩
    | cons n todo =>
      cases good : s.good with
      | true => exact ⟨_, .call main good⟩
      | false => exact ⟨_, .callEnded main good⟩
  | reads n todo =>
    cases n with
    | zero => exact ⟨_, .full main⟩
    | succ n =>
      cases there : s.pipes false with
      | nil =>
        obtain ⟨answer, gone⟩ := taken there
        exact ⟨_, .short main there gone⟩
      | cons ch rest => exact ⟨_, .take main there⟩
  | drains n =>
    match n with
    | none =>
      cases good : s.good with
      | true => exact ⟨_, .drain main good⟩
      | false => exact ⟨_, .drained main good⟩
    | some 0 => exact ⟨_, .drainFull main⟩
    | some (n + 1) =>
      cases there : s.pipes false with
      | nil =>
        obtain ⟨answer, gone⟩ := taken there
        exact ⟨_, .drainShort main there gone⟩
      | cons ch rest => exact ⟨_, .drainTake main there⟩
  | waits =>
    obtain ⟨answer, gone⟩ := (alive.ended (alive.drained (.inl main))).1
    obtain ⟨q, waited⟩ := ProcessImpl.wait_alive (alive.process owns) (alive.reaps answer gone)
    exact ⟨_, .wait main gone waited⟩
  | joins res => simp [main, DecoderPhase.owns] at owns
  | destroyed res => simp [main, DecoderPhase.owns] at owns

theorem Alive.goes_on (alive : s.Alive) (room : 0 < capacity)
    (going : ∀ res, s.main ≠ .destroyed res) : ∃ t, Step p capacity s t := by
  have messages : s.finished = false →
      (s.pipes true ≠ [] ∨ ∃ answer, s.child = .gone answer) → ∃ t, Step p capacity s t := by
    intro unfinished able
    cases there : s.pipes true with
    | nil =>
      obtain ⟨answer, gone⟩ := able.resolve_left (not_not.mpr there)
      exact ⟨_, .pipeEnd unfinished there gone⟩
    | cons ch rest => exact ⟨_, .pipe unfinished there⟩
  cases child : s.child with
  | gone answer =>
    cases owns : s.main.owns with
    | true => exact alive.moves (.inr ⟨answer, child⟩) owns
    | false =>
      cases main : s.main with
      | joins res =>
        cases finished : s.finished with
        | true => exact ⟨_, .join main finished⟩
        | false => exact messages finished (.inr ⟨answer, child⟩)
      | destroyed res => exact absurd main (going res)
      | constructs | idle | reads | drains | waits => simp [main, DecoderPhase.owns] at owns
  | runs k =>
    cases act : p.act k with
    | compute next => exact ⟨_, .compute child act⟩
    | exit answer => exact ⟨_, .exit child act⟩
    | read next =>
      cases stdin : s.stdinOpen with
      | false => exact ⟨_, .readEnd child act stdin⟩
      | true =>
        have constructs : ∃ todo, s.main = .constructs todo := by
          by_contra other
          have closed := alive.closed (not_exists.mp other)
          simp [stdin] at closed
        obtain ⟨todo, main⟩ := constructs
        exact ⟨_, .close main⟩
    | write e ch next =>
      by_cases empty : s.pipes e = []
      · exact ⟨_, .write child act (by simpa [empty] using room)⟩
      cases e with
      | true =>
        refine messages ?_ (.inl empty)
        by_contra finished
        exact empty (alive.finished (by simpa using finished)).2
      | false =>
        refine alive.moves (.inl empty) ?_
        by_contra disowned
        exact empty (alive.ended (alive.drained (.inr (by simpa using disowned)))).2

end Progress

section Ending

variable {first a last : Alone κ}

theorem weight_main {main : DecoderPhase} {pipes : Bool → Bytes} {stdinOpen good : Bool} {got : Bytes}
    {results : List Bytes} {process : ProcessImpl} (others : pipes true = s.pipes true)
    (lower : main.weight + 3 * (pipes false).length < s.main.weight + 3 * (s.pipes false).length) :
    weight { s with
      main := main
      pipes := pipes
      stdinOpen := stdinOpen
      good := good
      got := got
      results := results
      process := process } < s.weight := by
  simp only [weight, others]
  omega

theorem drains_weight (n : Nat) :
    DecoderPhase.weight (.drains (some n)) < DecoderPhase.weight (.drains (some (n + 1))) + 3 := by
  simp only [DecoderPhase.weight]
  split <;> split <;> omega

theorem afterDrain_weight (n : Nat) : (afterDrain n).weight < DecoderPhase.weight (.drains (some n)) := by
  by_cases some_read : n < 4096 <;> simp [afterDrain, DecoderPhase.weight, some_read]

/-- A step before or after the signal is a step of the program, or lowers the weight. -/
theorem Tracks.step (alive : s.Alive) (tracks : Tracks p.toProgram s a) (step : Step p capacity s t)
    (same : t.main.signalled = s.main.signalled) :
    ∃ a', Tracks p.toProgram t a' ∧
      (a' = a ∧ t.weight < s.weight ∨ a.step p.toProgram = some a' ∧ t.weight ≤ s.weight + 3) := by
  cases step with
  | close main | callEnded main | full main | short main | drained main | wait main | join main
  | drain main | drainFull main =>
    refine ⟨a, ⟨tracks.state, tracks.exited, tracks.input⟩, .inl ⟨rfl, weight_main rfl ?_⟩⟩
    simp [main, DecoderPhase.weight]
  | call main good =>
    refine ⟨a, ⟨tracks.state, tracks.exited, tracks.input⟩, .inl ⟨rfl, weight_main rfl ?_⟩⟩
    simp only [main, DecoderPhase.weight, List.length_cons]
    omega
  | take main there =>
    refine ⟨a, ⟨tracks.state, tracks.exited, tracks.input⟩, .inl ⟨rfl, weight_main rfl ?_⟩⟩
    simp [main, there, DecoderPhase.weight]
  | signal main => simp [main, DecoderPhase.signalled] at same
  | @drainTake n ch rest main there =>
    refine ⟨a, ⟨tracks.state, tracks.exited, tracks.input⟩, .inl ⟨rfl, weight_main rfl ?_⟩⟩
    have lower := drains_weight n
    simp only [main, there, Function.update_self, List.length_cons]
    omega
  | @drainShort n answer main empty gone =>
    refine ⟨a, ⟨tracks.state, tracks.exited, tracks.input⟩, .inl ⟨rfl, weight_main rfl ?_⟩⟩
    rw [main]
    exact Nat.add_lt_add_right (afterDrain_weight (n + 1)) _
  | @compute k next runs act =>
    exact ⟨{ a with state := next }, ⟨fun _ runs' => Child.runs.inj runs', by simp, tracks.input⟩,
      .inr ⟨by simp [Alone.step, tracks.state k runs, act], by simp [weight, runs, Child.weight]⟩⟩
  | @readEnd k next runs act closed =>
    exact ⟨{ a with state := next none }, ⟨fun _ runs' => Child.runs.inj runs', by simp, tracks.input⟩,
      .inr ⟨by simp [Alone.step, tracks.state k runs, act, tracks.input],
        by simp [weight, runs, Child.weight]⟩⟩
  | @write k next e ch runs act room =>
    refine ⟨{ a with
        state := next
        output := Function.update a.output e (a.output e ++ [ch]) },
      ⟨fun _ runs' => Child.runs.inj runs', by simp, tracks.input⟩,
      .inr ⟨by simp [Alone.step, tracks.state k runs, act], ?_⟩⟩
    cases e <;> simp [weight, runs, Child.weight] <;> omega
  | @exit k answer runs act =>
    refine ⟨a, ⟨by simp, fun answer' gone => ?_, tracks.input⟩, .inl ⟨rfl, ?_⟩⟩
    · cases gone
      rw [tracks.state k runs, act]
    · simp [weight, runs, Child.weight]
  | @pipe ch rest going there =>
    refine ⟨a, ⟨tracks.state, tracks.exited, tracks.input⟩, .inl ⟨rfl, ?_⟩⟩
    have buf := round_stringstream_weight s.msgs ch
    simp only [weight, Function.update_self, there, List.length_cons,
      Function.update_of_ne Bool.false_ne_true]
    omega
  | pipeEnd going empty gone =>
    refine ⟨a, ⟨tracks.state, tracks.exited, tracks.input⟩, .inl ⟨rfl, ?_⟩⟩
    have no_buf := (leave_stringstream alive.source).2.1
    simp only [weight, no_buf, going, Bool.not_true, Bool.toNat_false, Bool.not_false,
      Bool.toNat_true, List.length_nil]
    omega

theorem Tracks.signal (tracks : Tracks p.toProgram s a) (step : Step p capacity s t)
    (unsignalled : s.main.signalled = false) (signalled : t.main.signalled = true) :
    t.weight < s.weight ∧ ∃ a', Tracks p.toProgram t a' ∧
      (a' = a ∨ a' = { a with state := p.interrupt a.state }) := by
  cases step with
  | signal main =>
    cases child : s.child with
    | runs k =>
      refine ⟨by simp [weight, main, child, interrupted, Child.weight, DecoderPhase.weight],
        { a with state := p.interrupt a.state }, ⟨fun k' runs => ?_, fun answer gone => ?_,
          tracks.input⟩, .inr rfl⟩
      · rw [tracks.state k child]
        simpa [child, interrupted] using runs
      · simp [interrupted] at gone
    | gone answer =>
      refine ⟨by simp [weight, main, child, interrupted, DecoderPhase.weight], a,
        ⟨fun k' runs => ?_, fun answer' gone => tracks.exited answer' ?_, tracks.input⟩, .inl rfl⟩
      · simp [interrupted] at runs
      · simpa [child, interrupted] using gone
  | close | call | callEnded | take | full | short => simp [DecoderPhase.signalled] at signalled
  | drain main | drained main | drainTake main | drainFull main | drainShort main | wait main
  | join main => simp [main, DecoderPhase.signalled] at unsignalled
  | compute | readEnd | write | exit | pipe | pipeEnd => simp [unsignalled] at signalled

/-- Wherever the program is interrupted, it exits after at most `bound` steps. -/
def Obeys (p : Interruptible κ) (first : Alone κ) (bound : Nat) : Prop :=
  ∀ n a, Alone.Steps p.toProgram n first a → ∃ m ≤ bound, ∃ b answer,
    Alone.EndsIn p.toProgram m { a with state := p.interrupt a.state } b answer

/-- Before the signal the program may have to be interrupted yet. -/
def Ranked (p : Interruptible κ) (first : Alone κ) (bound : Nat) (s : Decoding κ) (m : Nat) : Prop :=
  s.Alive ∧ ∃ a n b answer, Tracks p.toProgram s a ∧ Alone.EndsIn p.toProgram n a b answer ∧
    (s.main.signalled = true ∧ m = 4 * n + s.weight ∨
      s.main.signalled = false ∧ (∃ k, Alone.Steps p.toProgram k first a) ∧
        m = 4 * n + s.weight + 4 * bound)

theorem Ranked.lowers {bound : Nat} (obeys : Obeys p first bound) (s t : Decoding κ) (m : Nat)
    (ranked : Ranked p first bound s m) (step : Step p capacity s t) :
    ∃ m' < m, Ranked p first bound t m' := by
  obtain ⟨alive, a, n, b, answer, tracks, ends, phase⟩ := ranked
  by_cases same : t.main.signalled = s.main.signalled
  · obtain ⟨a', tracks', ⟨rfl, lower⟩ | ⟨taken, within⟩⟩ := tracks.step alive step same
    · rcases phase with ⟨signalled, rfl⟩ | ⟨unsignalled, reached, rfl⟩
      · exact ⟨4 * n + t.weight, by omega, alive.step step, a', n, b, answer, tracks', ends,
          .inl ⟨same.trans signalled, rfl⟩⟩
      · exact ⟨4 * n + t.weight + 4 * bound, by omega, alive.step step, a', n, b, answer, tracks',
          ends, .inr ⟨same.trans unsignalled, reached, rfl⟩⟩
    · obtain ⟨steps, exits⟩ := ends
      cases steps with
      | refl =>
        rw [Alone.step_exit exits] at taken
        contradiction
      | @next n _ c _ next later =>
        obtain rfl : c = a' := Option.some.inj (next.symm.trans taken)
        rcases phase with ⟨signalled, rfl⟩ | ⟨unsignalled, ⟨k, reached⟩, rfl⟩
        · exact ⟨4 * n + t.weight, by omega, alive.step step, c, n, b, answer, tracks',
            ⟨later, exits⟩, .inl ⟨same.trans signalled, rfl⟩⟩
        · exact ⟨4 * n + t.weight + 4 * bound, by omega, alive.step step, c, n, b, answer, tracks',
            ⟨later, exits⟩, .inr ⟨same.trans unsignalled, ⟨k + 1, reached.snoc next⟩, rfl⟩⟩
  · rcases phase with ⟨signalled, _⟩ | ⟨unsignalled, ⟨k, reached⟩, rfl⟩
    · exact absurd ((results_after signalled step).1.trans signalled.symm) same
    · have signalled : t.main.signalled = true := by simpa [unsignalled] using same
      obtain ⟨lower, a', tracks', rfl | rfl⟩ := tracks.signal step unsignalled signalled
      · exact ⟨4 * n + t.weight, by omega, alive.step step, a', n, b, answer, tracks', ends,
          .inl ⟨signalled, rfl⟩⟩
      · obtain ⟨n', within, b', answer', ends'⟩ := obeys k a reached
        exact ⟨4 * n' + t.weight, by omega, alive.step step, _, n', b', answer', tracks', ends',
          .inl ⟨signalled, rfl⟩⟩

theorem Ranked.start (positive : pid ≠ 0) {k : κ} {ns : List Nat} {n bound : Nat}
    {answer : WaitAnswer} (ends : Alone.EndsIn p.toProgram n ⟨k, [], fun _ => []⟩ last answer) :
    Ranked p ⟨k, [], fun _ => []⟩ bound (start pid k ns) (4 * (n + bound) + 3 * ns.length + 13) :=
  have tracks : Reads p.toProgram ⟨k, [], fun _ => []⟩ ns (.finite []) _ _ _ := .start
  ⟨.start positive k ns, _, n, last, answer, tracks.toTracks, ends, .inr ⟨rfl, ⟨0, .refl _⟩, by
      simp [weight, Decoding.start, Child.weight, DecoderPhase.weight]
      omega⟩⟩

theorem Alive.stuck_iff (alive : s.Alive) (room : 0 < capacity) :
    Schedule.Stuck (Step p capacity) s ↔ ∃ res, s.main = .destroyed res := by
  constructor
  · intro stuck
    by_contra going
    obtain ⟨t, step⟩ := alive.goes_on room (not_exists.mp going)
    exact stuck t step
  · rintro ⟨res, destroyed⟩ t step
    obtain ⟨answer, gone⟩ := (alive.ended (alive.drained (.inr (destroyed ▸ rfl)))).1
    have finished := alive.joined res destroyed
    cases step with
    | close main | call main | callEnded main | take main | full main | short main | signal main
    | drain main | drained main | drainTake main | drainFull main | drainShort main | wait main
    | join main => simp [destroyed] at main
    | compute runs | readEnd runs | write runs | exit runs => simp [gone] at runs
    | pipe going | pipeEnd going => simp [finished] at going

end Ending

end Decoding

def Decoder.reads (dec : Decoder) (ns : List Nat) : Decoder :=
  ns.foldl (fun dec n => (dec.read n []).2.2) dec

theorem Decoder.log_reads (dec : Decoder) (ns : List Nat) :
    (dec.reads ns).log.map Read.got = dec.log.map Read.got ++ dec.stdout.cuts ns := by
  induction ns generalizing dec with
  | nil => simp [reads, Output.cuts]
  | cons n ns ih =>
    obtain ⟨next, read, stdout, log⟩ := dec.read_spec n []
    have first : dec.reads (n :: ns) = next.reads ns := by simp [reads, read]
    simp [first, ih, stdout, log, Output.cuts]

namespace Decoding

variable {κ : Type} {p : Interruptible κ} {capacity : Nat} {pid : Int} {s : Decoding κ}

theorem got_of_path (positive : pid ≠ 0) {k : κ} {ns : List Nat} {out : Output} {m : Nat}
    (writes : Alone.Writes p.toProgram ⟨k, [], fun _ => []⟩ out)
    (path : Schedule.Path (Step p capacity) m (start pid k ns) s) :
    s.Alive ∧ Got p.toProgram ⟨k, [], fun _ => []⟩ ns out s :=
  path.keep (fun s => s.Alive ∧ Got p.toProgram ⟨k, [], fun _ => []⟩ ns out s)
    (fun _ _ ⟨alive, got⟩ step => ⟨alive.step step, got.step alive writes step⟩)
    ⟨.start positive k ns, .inl ⟨rfl, [], _, .start⟩⟩

theorem Got.results {first : Alone κ} {ns : List Nat} {out : Output}
    (got : Got p.toProgram first ns out s) : s.results = out.cuts (ns.take s.results.length) := by
  rcases got with ⟨_, past, a, reads⟩ | ⟨_, results⟩
  · have length : s.results.length = past.length := by rw [reads.results, Output.length_cuts]
    rw [length, reads.split, List.take_left]
    exact reads.results
  · rw [results, Output.length_cuts, List.take_length]

theorem reads_start (out : Output) (ns : List Nat) :
    ((Decoder.start out).reads ns).log.map Read.got = out.cuts ns := by
  simp [Decoder.log_reads, Decoder.start]

/-- However the child and the two threads are scheduled and whatever the pipes hold, the reads give
what they give on the output of the program alone, and nobody is left waiting. If the program exits,
with and without the signal, then every run comes to an end. -/
theorem decoding_alone (positive : pid ≠ 0) (room : 0 < capacity) {k : κ} {ns : List Nat} {m : Nat}
    (path : Schedule.Path (Step p capacity) m (start pid k ns) s) :
    (Schedule.Stuck (Step p capacity) s ↔ ∃ res, s.main = .destroyed res) ∧
    (∀ out, Alone.Writes p.toProgram ⟨k, [], fun _ => []⟩ out →
      s.results = ((Decoder.start out).reads (ns.take s.results.length)).log.map Read.got) ∧
    ∀ n last answer bound, Alone.EndsIn p.toProgram n ⟨k, [], fun _ => []⟩ last answer →
      Obeys p ⟨k, [], fun _ => []⟩ bound →
      m ≤ 4 * (n + bound) + 3 * ns.length + 13 ∧
        ∃ m' t res, Schedule.Path (Step p capacity) m' s t ∧ t.main = .destroyed res ∧
          t.results = ((Decoder.start (.finite (last.output false))).reads ns).log.map Read.got := by
  have alive : s.Alive := path.keep Alive (fun _ _ alive step => alive.step step)
    (.start positive k ns)
  refine ⟨alive.stuck_iff room, fun out writes => ?_, fun n last answer bound ends obeys => ?_⟩
  · rw [reads_start]
    exact (got_of_path positive writes path).2.results
  · have lowers : ∀ s t m, Ranked p ⟨k, [], fun _ => []⟩ bound s m → Step p capacity s t →
        ∃ m' < m, Ranked p ⟨k, [], fun _ => []⟩ bound t m' := Ranked.lowers obeys
    obtain ⟨m', within, ranked⟩ := path.bounded _ lowers (.start positive ends)
    obtain ⟨n', t, later, stuck⟩ := Schedule.exists_stuck _ lowers ranked
    obtain ⟨alive, got⟩ := got_of_path positive ends.writes (path.trans later)
    obtain ⟨res, destroyed⟩ := (alive.stuck_iff room).mp stuck
    refine ⟨by omega, n', t, res, later, destroyed, ?_⟩
    rw [reads_start]
    rcases got with ⟨unsignalled, _⟩ | ⟨_, results⟩
    · simp [destroyed, DecoderPhase.signalled] at unsignalled
    · exact results

def twoSamples : Interruptible Nat where
  act
    | 0 => .write false 1 1
    | 1 => .write true 65 2
    | 2 => .write false 2 3
    | 3 => .exit (.exited 0)
    | _ => .exit (.signaled 2)
  exits k answer exit := by
    match k with
    | 0 | 1 | 2 => simp at exit
    | 3 | _ + 4 => exact Act.exit.inj exit ▸ rfl
  interrupt _ := 4

theorem decoding_alone_twoSamples :
    ∃ m t res, Schedule.Path (Step twoSamples 1) m (start 17 0 [1, 4]) t ∧ t.main = .destroyed res ∧
      t.results = [[1], [2]] := by
  have ends : Alone.EndsIn twoSamples.toProgram 3 ⟨0, [], fun _ => []⟩
      ⟨3, [], Function.update (Function.update (Function.update (fun _ => []) false [1]) true [65])
        false [1, 2]⟩ (.exited 0) :=
    ⟨.next rfl (.next rfl (.next rfl (.refl _))), rfl⟩
  have obeys : Obeys twoSamples ⟨0, [], fun _ => []⟩ 0 := fun _ a _ =>
    ⟨0, Nat.le_refl 0, { a with state := 4 }, .signaled 2, .refl _, rfl⟩
  have path : Schedule.Path (Step twoSamples 1) 0 (start 17 0 [1, 4]) _ := .refl _
  obtain ⟨_, m, t, res, path, destroyed, results⟩ :=
    (decoding_alone (by decide) Nat.one_pos path).2.2 _ _ _ _ ends obeys
  exact ⟨m, t, res, path, destroyed, results⟩

end Decoding

end HttpAudioServer

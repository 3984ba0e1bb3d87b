import HttpAudioServer.Listening

/-! The tracks that the page shows while it plays: `update_info` runs every tenth of a second, and
goes on by at most one track. -/
namespace HttpAudioServer

open Javascript

def Stream.Reply.records : Stream.Reply → List Record
  | .segments metadata _ => metadata
  | .appended | .threw _ => []

namespace Listening

variable {c : Codec} {floatText : Rat → Bytes} {engine : Engine} {bs : List Seen}
  {s t : Listening c}

theorem metaSegment_answer {metadata : List Record} {data : Bytes}
    (fits : Fits floatText metadata data) :
    metaSegment (Stream.segments floatText metadata data) = some (Stream.smeta floatText metadata) := by
  rw [metaSegment, parse_answer fits, Option.bind_some]
  split <;> rfl

/-- Whether the page gets the metadata of an answer as a string. -/
def legible (floatText : Rat → Bytes) (engine : Engine) (reply : Stream.Reply) : Bool :=
  decide ((Stream.smeta floatText reply.records).length ≤ engine.maxArguments)

theorem itemsOf_fits (numbers : ∀ x, x ≠ 0 → isNumber (ofBytes (floatText x)) = true)
    {reply : Stream.Reply} (fits : reply.Fits floatText) :
    itemsOf floatText engine reply = if legible floatText engine reply then
      reply.records.map fun r => r.toJson.read floatText else [] := by
  cases reply with
  | appended => simp [itemsOf, Stream.Reply.loaded, Stream.Reply.records]
  | threw => exact fits.elim
  | segments metadata data =>
    simp only [itemsOf, Stream.Reply.loaded, metaSegment_answer fits, Option.bind_some,
      pageMetadata_smeta engine numbers, legible, Stream.Reply.records]
    by_cases short : (Stream.smeta floatText metadata).length ≤ engine.maxArguments <;> simp [short]

theorem flatMap_itemsOf (numbers : ∀ x, x ≠ 0 → isNumber (ofBytes (floatText x)) = true)
    {replies : List Stream.Reply} (fits : ∀ reply ∈ replies, reply.Fits floatText) :
    replies.flatMap (itemsOf floatText engine) =
      ((replies.filter (legible floatText engine)).flatMap Stream.Reply.records).map fun r =>
        r.toJson.read floatText := by
  induction replies with
  | nil => rfl
  | cons reply replies ih =>
    obtain ⟨first, others⟩ := List.forall_mem_cons.mp fits
    rw [List.flatMap_cons, itemsOf_fits numbers first, ih others, List.filter_cons]
    split <;> simp

theorem undelivered_checkNextChunk (bufferTs currentTime : Rat) :
    (checkNextChunk bufferTs currentTime).undelivered = [] := by
  unfold checkNextChunk
  split <;> rfl

/-- A player that is alone has read what has been heard. -/
def Heard (bs : List Seen) (s : Listening c) : Prop :=
  ∀ i p, s.players i = some p → (∀ j, j ≠ i → s.players j = none) →
    served i bs = s.heard ++ p.awaits.undelivered

theorem Heard.goes_on {bs' : List Seen} (heard : Heard bs s) {i : Nat} {p q : Player}
    (player : s.players i = some p) (next : t.players = Function.update s.players i (some q))
    (step : served i bs = s.heard ++ p.awaits.undelivered →
      served i bs' = t.heard ++ q.awaits.undelivered) : Heard bs' t := by
  intro j q' there only
  rw [next] at there only
  have same : j = i := by
    by_contra other
    have nothing := only i (Ne.symm other)
    simp at nothing
  subst same
  obtain rfl : q = q' := by simpa using there
  refine step (heard j p player fun k other => ?_)
  simpa [other] using only k other

theorem Heard.rest {bs' : List Seen} (heard : Heard bs s) (players : t.players = s.players)
    (same : t.heard = s.heard) (quiet : ∀ i, served i bs' = served i bs) : Heard bs' t := by
  intro i p player only
  rw [quiet, same]
  exact heard i p (players ▸ player) (players ▸ only)

theorem Heard.step (keeps : Keeps floatText bs s) (heard : Heard bs s) {e : Happening} {seen : Seen}
    (goes : Goes floatText engine s e t seen) : Heard (bs ++ [seen]) t := by
  cases goes with
  | click =>
    intro i p player only
    obtain ⟨q, before, rfl⟩ := Option.map_eq_some_iff.mp player
    rw [served_none]
    exact heard i q before fun j other => Option.map_eq_none_iff.mp (only j other)
  | @sourceOpen i opening fresh =>
    intro j p player only
    have same : j = i := by
      by_contra other
      have nothing := only i (Ne.symm other)
      simp [Listening.set] at nothing
    subst same
    obtain rfl : ({} : Player) = p := by simpa [Listening.set] using player
    simpa [Await.undelivered] using keeps.fresh j fresh
  | @serve i p media server reply player awaits serves =>
    exact heard.goes_on player rfl fun before => by simp [before, awaits, Await.undelivered, Listening.set]
  | threw player awaits =>
    exact heard.goes_on player rfl fun before => by
      simpa [awaits, Await.undelivered, Listening.set] using before
  | @appends i p reply page player awaits =>
    refine heard.goes_on player rfl fun before => ?_
    rw [served_none, before, awaits, undelivered_checkNextChunk]
    simp [Await.undelivered, Listening.set]
  | ends player awaits =>
    exact heard.goes_on player rfl fun before => by
      simp [before, awaits, Await.undelivered, Listening.set]
  | updateend player updating =>
    exact heard.goes_on player rfl fun before => by simpa [Listening.set] using before
  | @timeout i p player awaits =>
    refine heard.goes_on player rfl fun before => ?_
    rw [served_none, before, awaits, undelivered_checkNextChunk]
    simp [Await.undelivered, Listening.set]
  | append | plays | shows | idle => exact heard.rest rfl rfl fun i => served_none i bs

/-- The tracks that were announced have been shown or are still to be shown. -/
structure Announces (floatText : Rat → Bytes) (engine : Engine) (s : Listening c) : Prop where
  whole : s.shown ++ s.metadata = s.heard.flatMap (itemsOf floatText engine)
  past : ∀ data ∈ s.shown, ∃ start, startOf engine data = some start ∧ start ≤ s.furthest

theorem Announces.step (passed : s.currentTime ≤ s.furthest) (announces : Announces floatText engine s)
    {e : Happening} {seen : Seen} (goes : Goes floatText engine s e t seen) :
    Announces floatText engine t := by
  cases goes with
  | sourceOpen => exact ⟨rfl, by simp⟩
  | appends | ends =>
    refine ⟨?_, announces.past⟩
    simp [Listening.set, ← announces.whole]
  | plays currentTime =>
    refine ⟨announces.whole, fun data member => ?_⟩
    obtain ⟨start, starts, past⟩ := announces.past data member
    exact ⟨start, starts, past.trans (le_max_left _ _)⟩
  | shows there starts past =>
    refine ⟨?_, ?_⟩
    · simp [← announces.whole, there]
    · intro data member
      rcases List.mem_append.mp member with before | last
      · exact announces.past data before
      · obtain rfl := List.mem_singleton.mp last
        exact ⟨_, starts, past.trans passed⟩
  | click | append | serve | threw | updateend | timeout | idle =>
    exact ⟨announces.whole, announces.past⟩

theorem run_announces (server : Stream c) {happenings : List Happening}
    (ran : (start server).run floatText engine happenings = some (s, bs)) :
    Heard bs s ∧ Announces floatText engine s := by
  have kept := Run.run_keeps
    (fun _ bs s => Keeps floatText bs s ∧ Heard bs s ∧ Announces floatText engine s)
    ⟨keeps_start server, fun i p player => by simp [start] at player, rfl, by simp [start]⟩
    (fun _ _ _ _ _ _ ⟨keeps, heard, announces⟩ stepped =>
      have goes := step_goes stepped
      ⟨keeps.step goes, heard.step keeps goes, announces.step keeps.passed goes⟩) ran
  exact kept.2

theorem run_updateInfo (n : Nat) (due : ∀ data ∈ s.metadata.take n,
    ∃ start, startOf engine data = some start ∧ start ≤ s.currentTime) :
    ∃ t bs, s.run floatText engine (List.replicate n .updateInfo) = some (t, bs) ∧
      t.shown = s.shown ++ s.metadata.take n ∧ t.metadata = s.metadata.drop n := by
  induction n generalizing s with
  | zero => exact ⟨s, [], rfl, by simp, rfl⟩
  | succ n ih =>
    cases there : s.metadata with
    | nil =>
      have stepped : s.step floatText engine .updateInfo = some (s, none) := by simp [step, there]
      obtain ⟨t, bs, ran, shown, metadata⟩ := ih (s := s) (by simp [there])
      refine ⟨t, none :: bs, ?_, by simpa [there] using shown, by simpa [there] using metadata⟩
      exact (Run.run_cons stepped _).trans (congrArg (Option.map _) ran)
    | cons data rest =>
      simp only [there, List.take_succ_cons, List.forall_mem_cons] at due
      obtain ⟨start, starts, past⟩ := due.1
      have stepped : s.step floatText engine .updateInfo =
          some ({ s with metadata := rest, shown := s.shown ++ [data] }, none) := by
        simp [step, there, starts, past]
      obtain ⟨t, bs, ran, shown, metadata⟩ :=
        ih (s := { s with metadata := rest, shown := s.shown ++ [data] }) due.2
      refine ⟨t, none :: bs, ?_, by simp [shown], by simpa using metadata⟩
      exact (Run.run_cons stepped _).trans (congrArg (Option.map _) ran)

/-- Where one player is alone, the tracks shown and those still to be shown are the tracks of the
answers it has read, in order and each once; an answer with a text that is too long for the page adds
none. No track is shown before it starts, and the page catches up as often as `update_info` runs. -/
theorem tracks_shown (numbers : ∀ x, x ≠ 0 → isNumber (ofBytes (floatText x)) = true)
    (server : Stream c) {happenings : List Happening}
    (ran : (start server).run floatText engine happenings = some (s, bs))
    (fits : ∀ reply ∈ answers bs, reply.Fits floatText) {i : Nat} {p : Player}
    (player : s.players i = some p) (only : ∀ j, .sourceOpen j ∈ happenings → j = i) :
    (∃ given, served i bs = given ++ p.awaits.undelivered ∧ s.shown ++ s.metadata =
      ((given.filter (legible floatText engine)).flatMap Stream.Reply.records).map fun r =>
        r.toJson.read floatText) ∧
    (∀ data ∈ s.shown, ∃ start, startOf engine data = some start ∧ start ≤ s.furthest) ∧
    ∀ n, (∀ data ∈ s.metadata.take n,
        ∃ start, startOf engine data = some start ∧ start ≤ s.currentTime) →
      ∃ t bs, s.run floatText engine (List.replicate n .updateInfo) = some (t, bs) ∧
        t.shown = s.shown ++ s.metadata.take n := by
  obtain ⟨heard, announces⟩ := run_announces server ran
  have split := heard i p player fun j other => run_players server ran (mt (only j) other)
  refine ⟨⟨s.heard, split, ?_⟩, announces.past, fun n due => ?_⟩
  · rw [announces.whole]
    exact flatMap_itemsOf numbers fun reply member =>
      fits_served fits reply (split ▸ List.mem_append_left _ member)
  · obtain ⟨t, bs', ran', shown, _⟩ := run_updateInfo n due
    exact ⟨t, bs', ran', shown⟩

/-- The first of the two tracks is shown. -/
theorem tracks_shown_playing :
    ∃ s bs p, (start (Stream.create Codec.plain 196000)).run Stream.minusOne sampleEngine playing =
        some (s, bs) ∧ s.players 0 = some p ∧ s.shown.length = 1 ∧ s.metadata.length = 1 ∧
      (∃ given, served 0 bs = given ++ p.awaits.undelivered ∧ s.shown ++ s.metadata =
        ((given.filter (legible Stream.minusOne sampleEngine)).flatMap Stream.Reply.records).map
          fun r => r.toJson.read Stream.minusOne) ∧
      (∀ data ∈ s.shown, ∃ start, startOf sampleEngine data = some start ∧ start ≤ s.furthest) ∧
      ∃ t bs, s.run Stream.minusOne sampleEngine [.updateInfo] = some (t, bs) ∧
        t.shown = s.shown ++ s.metadata := by
  obtain ⟨s, bs, p, ran, player, fits, _, one, rest, _, started⟩ := playing_runs
  obtain ⟨whole, past, shows⟩ := tracks_shown (fun x _ => minusOne_number x) _ ran fits player
    fun j opened => by simpa [playing] using opened
  have all : s.metadata.take 1 = s.metadata := List.take_of_length_le rest.le
  have next : ∀ data ∈ s.metadata.take 1,
      ∃ start, startOf sampleEngine data = some start ∧ start ≤ s.currentTime := by
    rw [all]
    intro data member
    have begun := List.all_eq_true.mp started data member
    simpa [Option.any_eq_true] using begun
  obtain ⟨t, bs', runs, shown⟩ := shows 1 next
  exact ⟨s, bs, p, ran, player, one, rest, whole, past, t, bs', runs, all ▸ shown⟩

end Listening

end HttpAudioServer

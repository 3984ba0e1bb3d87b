import HttpAudioServer.Library.Unwinding
import HttpAudioServer.System

/-! Streams do not disturb each other. -/
namespace HttpAudioServer

open Unwinding

variable {c : Codec}

/-- One of the requests for a stream, with any body. -/
def Arrival.Names (a : Arrival) (streamId : Bytes) : Prop := ∃ action, a.hm.Asks streamId action

instance (a : Arrival) (streamId : Bytes) : Decidable (a.Names streamId) :=
  decidable_of_iff (∃ action ∈ [Action.append, .advance, .destroy],
    a.hm.method = str "POST" ∧ a.hm.uri = streamUri streamId action) <| by
    constructor
    · rintro ⟨action, _, asks⟩
      exact ⟨action, asks⟩
    · rintro ⟨action, asks⟩
      exact ⟨action, by cases action <;> simp, asks⟩

theorem Arrival.Names.eq {a : Arrival} {streamId other : Bytes} (names : a.Names streamId)
    (names' : a.Names other) : streamId = other := by
  obtain ⟨action, _, uri⟩ := names
  obtain ⟨action', _, uri'⟩ := names'
  exact (streamUri_injective (uri.symm.trans uri')).1

/-- A request that is not for the stream: one for a stream of another client, or one that
creates a stream with another id. -/
def Arrival.Foreign (a : Arrival) (streamId other : Bytes) : Prop :=
  a.Names other ∨ (a.hm.Creates ∧ a.outside.drawn.text ≠ streamId)

theorem Arrival.Foreign.not_names {a : Arrival} {streamId other : Bytes}
    (different : streamId ≠ other) (foreign : a.Foreign streamId other) : ¬ a.Names streamId := by
  intro names
  rcases foreign with names' | ⟨creates, _⟩
  · exact different (names.eq names')
  · obtain ⟨action, _, uri⟩ := names
    exact streamUri_ne_create streamId action (uri.symm.trans creates.2)

/-- What is stored under an id is all that a request for it finds, and a request for another id
leaves it there. -/
theorem serve_unwinds (parse : Bytes → Except Exn Json) (floatText : Rat → Bytes)
    {idA idB : Bytes} (different : idA ≠ idB) :
    Unwinds (serve parse floatText) Streams.Ready (fun streams : Streams c => streams idA)
      (Arrival.Names · idA) (Arrival.Foreign · idA idB) where
  consistent streams streams' a ready ready' same names := by
    obtain ⟨action, asks⟩ := names
    by_cases isId : IsStreamId idA
    · obtain ⟨script, entry', handles, readyEntry⟩ := handles_total parse floatText
        a.outside.media idA a.hm.body action (ready idA)
      have handles' := handles
      rw [same] at handles'
      refine ⟨_, _, _, (answers_asks isId asks handles).serve,
        (answers_asks isId asks handles').serve, ready.update readyEntry,
        ready'.update readyEntry, ?_⟩
      rw [Function.update_self, Function.update_self]
    · exact ⟨_, _, _, (answers_malformed isId asks).serve, (answers_malformed isId asks).serve,
        ready, ready', same⟩
  silent streams a ready foreign := by
    rcases foreign with ⟨action, asks⟩ | ⟨creates, drawn⟩
    · by_cases isId : IsStreamId idB
      · obtain ⟨script, entry', handles, readyEntry⟩ := handles_total parse floatText
          a.outside.media idB a.hm.body action (ready idB)
        exact ⟨_, _, (answers_asks isId asks handles).serve, ready.update readyEntry,
          Function.update_of_ne different _ _⟩
      · exact ⟨_, _, (answers_malformed isId asks).serve, ready, rfl⟩
    · exact ⟨_, _, (answers_creates creates).serve, ready.emplace (Stream.create_ready 196000) _,
        Streams.emplace_other drawn.symm _⟩

/-- Two clients, each with an id of its own, from any state of the server. However their
requests are interleaved, those for the one id are answered, and leave under it, what they
would on their own. The bodies and ids are any, and so is what the outside gives, which a
request brings with it: it is the same in both runs. The other client may also create streams,
if it does not draw the id. -/
theorem streams_isolated (c : Codec) (parse : Bytes → Except Exn Json) (floatText : Rat → Bytes)
    (before : List Arrival) (streams : Streams c) (sents : List (List Sent))
    (reached : Run.run (serve parse floatText) noStreams before = some (streams, sents))
    (idA idB : Bytes) (different : idA ≠ idB) (onA onB merged : List Arrival)
    (namesA : ∀ a ∈ onA, a.Names idA) (namesB : ∀ b ∈ onB, b.Foreign idA idB)
    (interleaved : Interleaves onA onB merged) :
    ∃ both answers alone answersAlone,
      Run.run (serve parse floatText) streams merged = some (both, answers) ∧
      Run.run (serve parse floatText) streams onA = some (alone, answersAlone) ∧
      answersTo (Arrival.Names · idA) merged answers = answersAlone ∧ both idA = alone idA := by
  have ready := ready_of_run reached
  exact (serve_unwinds parse floatText different).runs (fun b => Arrival.Foreign.not_names different)
    interleaved namesA namesB ready ready rfl

/-- The first client appends a file, with a body that is no JSON, and asks for audio, and the
second one destroys its stream in between. -/
theorem streams_isolated_two_clients :
    ∃ (streams both alone : Streams Codec.plain) (answers answersAlone : List (List Sent)),
      Run.run (serve parseNothing fun _ => []) streams
        [post (streamUri idOfA.text .append) [] idOfA, post (streamUri idOfB.text .destroy) [] idOfA,
          post (streamUri idOfA.text .advance) [] idOfA] = some (both, answers) ∧
      Run.run (serve parseNothing fun _ => []) streams
        [post (streamUri idOfA.text .append) [] idOfA,
          post (streamUri idOfA.text .advance) [] idOfA] = some (alone, answersAlone) ∧
      both idOfA.text = alone idOfA.text := by
  obtain ⟨streams, sents, reached, _⟩ := serve_runs (c := Codec.plain) parseNothing (fun _ => [])
    [post (str "/stream/create") [] idOfA, post (str "/stream/create") [] idOfB]
  have different : idOfA.text ≠ idOfB.text := by decide
  obtain ⟨both, answers, alone, answersAlone, merged, own, _, same⟩ :=
    streams_isolated Codec.plain parseNothing (fun _ => []) _ streams sents reached idOfA.text
      idOfB.text different
      [post (streamUri idOfA.text .append) [] idOfA, post (streamUri idOfA.text .advance) [] idOfA]
      [post (streamUri idOfB.text .destroy) [] idOfA] _
      (by
        intro a member
        simp only [List.mem_cons, List.not_mem_nil, or_false] at member
        rcases member with rfl | rfl
        · exact ⟨.append, rfl, rfl⟩
        · exact ⟨.advance, rfl, rfl⟩)
      (by
        intro b member
        cases List.mem_singleton.mp member
        exact .inl ⟨.destroy, rfl, rfl⟩)
      (.left (.right (.left .nil)))
  exact ⟨streams, both, alone, answers, answersAlone, merged, own, same⟩

end HttpAudioServer

import HttpAudioServer.Answers

/-! A request to append a file: it adds the file to the playlist, or it changes nothing. -/
namespace HttpAudioServer

variable {c : Codec}

/-- The body is a JSON object with a member `filename`, which is a string. -/
def NamesFile (parse : Bytes → Except Exn Json) (body filename : Bytes) : Prop :=
  ∃ fields, parse body = .ok (.object fields) ∧
    fields.lookup (str "filename") = some (.string filename)

theorem Json.getString_ok {j : Json} {s : Bytes} (typed : j.getString = .ok s) : j = .string s := by
  cases j <;> simp_all [Json.getString]

theorem Json.find_some {key : Bytes} {j value : Json} (found : j.find key = some value) :
    ∃ fields, j = .object fields ∧ fields.lookup key = some value := by
  cases j with
  | object fields => exact ⟨fields, rfl, found⟩
  | _ => contradiction

section NamesFile

variable {parse : Bytes → Except Exn Json} {body filename : Bytes} {resource fn : Json}

theorem namesFile_of_found (parsed : parse body = .ok resource)
    (found : resource.find (str "filename") = some fn) (typed : fn.getString = .ok filename) :
    NamesFile parse body filename := by
  obtain ⟨fields, rfl, member⟩ := Json.find_some found
  cases Json.getString_ok typed
  exact ⟨fields, parsed, member⟩

theorem NamesFile.unique {other : Bytes} (names : NamesFile parse body filename)
    (names' : NamesFile parse body other) : filename = other := by
  obtain ⟨fields, parsed, member⟩ := names
  obtain ⟨fields', parsed', member'⟩ := names'
  cases parsed.symm.trans parsed'
  cases member.symm.trans member'
  rfl

end NamesFile

/-- How a request to append is answered, and what it leaves under its id. -/
structure Appended (parse : Bytes → Except Exn Json) (body : Bytes) (entry : Option (Stream c))
    (sent : List Sent) (entry' : Option (Stream c)) (code : Int) : Prop where
  answers : status sent = some code
  one : heads sent = 1
  appends : code = 200 → ∃ s filename, entry = some s ∧ NamesFile parse body filename ∧
    entry' = some { s with decoders := s.decoders ++ [{ filename := filename, offs := 0 }] }
  fails : code ≠ 200 → (code = 400 ∨ code = 404 ∨ code = 500) ∧ entry' = entry ∧
    ∀ s filename, entry = some s → ¬ NamesFile parse body filename

theorem Appended.rejects {parse : Bytes → Except Exn Json} {body : Bytes} {entry : Option (Stream c)}
    {code : Int} (failure : code = 400 ∨ code = 404 ∨ code = 500) (msg : Bytes)
    (other : ∀ s filename, entry = some s → ¬ NamesFile parse body filename) :
    Appended parse body entry (⟨[.error code msg], none⟩ : Script).sent entry code := by
  obtain ⟨status, one, _⟩ := reply_sent "error" code msg
  rw [error_sent]
  refine ⟨status, one, fun success => ?_, fun _ => ⟨failure, rfl, other⟩⟩
  omega

theorem Handles.appended {parse : Bytes → Except Exn Json} {floatText : Rat → Bytes} {media : Media}
    {streamId body : Bytes} {entry entry' : Option (Stream c)} {script : Script}
    (handles : Handles parse floatText media streamId body .append entry script entry') :
    ∃ code, Appended parse body entry script.sent entry' code := by
  cases handles with
  | unknown =>
    refine ⟨404, Appended.rejects (.inr (.inl rfl)) _ ?_⟩
    intro s filename stored
    contradiction
  | unparsed malformed =>
    rw [throws_sent]
    refine ⟨500, Appended.rejects (.inr (.inr rfl)) _ ?_⟩
    rintro _ filename _ ⟨fields, parsed, _⟩
    cases malformed.symm.trans parsed
  | incomplete parsed missing =>
    refine ⟨400, Appended.rejects (.inl rfl) _ ?_⟩
    rintro _ filename _ ⟨fields, parsed', member⟩
    cases parsed.symm.trans parsed'
    cases missing.symm.trans member
  | untyped parsed found other =>
    rw [throws_sent]
    refine ⟨500, Appended.rejects (.inr (.inr rfl)) _ ?_⟩
    rintro _ filename _ ⟨fields, parsed', member⟩
    cases parsed.symm.trans parsed'
    cases found.symm.trans member
    contradiction
  | @appends s _ _ filename parsed found typed =>
    obtain ⟨status, one, _⟩ := reply_sent "ok" 200 (str "Appended file " ++ filename)
    rw [ok_sent]
    refine ⟨200, status, one, fun _ => ?_, fun failure => absurd rfl failure⟩
    exact ⟨s, filename, rfl, namesFile_of_found parsed found typed, rfl⟩

/-- A request to append, with any id and any body, in any state that the server can be in. It
is answered 200 if the id is live and the body names a file, and that file is then the last of
the playlist; otherwise the answer is an error, and all streams are what they were. -/
theorem append_all_or_nothing (c : Codec) (parse : Bytes → Except Exn Json)
    (floatText : Rat → Bytes) (before : List Arrival) (streams : Streams c) (sents : List (List Sent))
    (reached : Run.run (serve parse floatText) noStreams before = some (streams, sents))
    (a : Arrival) (streamId : Bytes) (asks : a.hm.Asks streamId .append) :
    ∃ streams' sent code, serve parse floatText streams a = some (streams', sent) ∧
      status sent = some code ∧ heads sent = 1 ∧
      (code = 200 ↔ ∃ s filename, streams streamId = some s ∧
        NamesFile parse a.hm.body filename) ∧
      (∀ s filename, streams streamId = some s → NamesFile parse a.hm.body filename →
        streams' = Function.update streams streamId (some
          { s with decoders := s.decoders ++ [{ filename := filename, offs := 0 }] })) ∧
      (code ≠ 200 → (code = 400 ∨ code = 404 ∨ code = 500) ∧ streams' = streams) := by
  by_cases isId : IsStreamId streamId
  · obtain ⟨script, entry', handles, _⟩ := handles_total parse floatText a.outside.media streamId
      a.hm.body .append (ready_of_run reached streamId)
    obtain ⟨code, appended⟩ := handles.appended
    refine ⟨_, _, code, (answers_asks isId asks handles).serve, appended.answers, appended.one,
      ⟨fun success => ?_, fun ⟨s, filename, live, names⟩ => ?_⟩, fun s filename live names => ?_,
      fun failure => ?_⟩
    · obtain ⟨s, filename, live, names, _⟩ := appended.appends success
      exact ⟨s, filename, live, names⟩
    · by_contra failure
      exact (appended.fails failure).2.2 s filename live names
    · have success : code = 200 := by
        by_contra failure
        exact (appended.fails failure).2.2 s filename live names
      obtain ⟨s', filename', live', names', stored⟩ := appended.appends success
      cases live.symm.trans live'
      cases names.unique names'
      rw [stored]
    · obtain ⟨codes, same, _⟩ := appended.fails failure
      exact ⟨codes, by rw [same, Function.update_eq_self]⟩
  · -- The streams that are there have ids that the route accepts
    have absent : ∀ s, streams streamId ≠ some s := by
      intro s live
      exact isId (held_isStreamId ((run_held reached streamId).mp (by rw [live]; rfl)))
    have rejected : Appended parse a.hm.body (streams streamId) (notRouted a.hm).sent
        (streams streamId) 404 :=
      Appended.rejects (.inr (.inl rfl)) _ fun s _ live => absurd live (absent s)
    refine ⟨_, _, 404, (answers_malformed isId asks).serve, rejected.answers, rejected.one,
      ⟨fun success => absurd success (by decide), fun ⟨s, _, live, _⟩ => absurd live (absent s)⟩,
      fun s _ live => absurd live (absent s), fun _ => ⟨.inr (.inl rfl), rfl⟩⟩

/-- The same file once more, for a stream that has it. -/
theorem append_all_or_nothing_live :
    ∃ streams sents streams' sent,
      Run.run (serve (c := Codec.plain) parseA fun _ => []) noStreams [createA, appendA] =
        some (streams, sents) ∧
      (streams idOfA.text).map (fun s => s.decoders) = some [{ filename := str "a", offs := 0 }] ∧
      serve parseA (fun _ => []) streams appendA = some (streams', sent) ∧
      status sent = some 200 ∧ heads sent = 1 ∧
      (streams' idOfA.text).map (fun s => s.decoders) =
        some [{ filename := str "a", offs := 0 }, { filename := str "a", offs := 0 }] := by
  obtain ⟨streams, sents, reached, there⟩ := reaches_ofA
  obtain ⟨streams', sent, code, served, answers, one, success, appends, _⟩ :=
    append_all_or_nothing Codec.plain parseA (fun _ => []) _ streams sents reached appendA idOfA.text
      ⟨rfl, rfl⟩
  have names : NamesFile parseA appendA.hm.body (str "a") := ⟨_, if_pos rfl, rfl⟩
  have ok : code = 200 := success.mpr ⟨ofA, _, there, names⟩
  refine ⟨streams, sents, streams', sent, reached, ?_, served, ok ▸ answers, one, ?_⟩
  · rw [there]
    rfl
  · rw [appends ofA _ there names, Function.update_self]
    rfl

end HttpAudioServer

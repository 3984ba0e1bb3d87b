import HttpAudioServer.Chunks
import HttpAudioServer.System

/-! The ids of new streams. They are drawn, and nothing looks whether an id is already there. -/
namespace HttpAudioServer

variable {c : Codec}

/-- The code of the first head on a connection. -/
def status : List Sent → Option Int
  | [] => none
  | .head code _ :: _ => some code
  | .chunk _ :: sent => status sent

def body (sent : List Sent) : Bytes := sent.flatMap fun
  | .head _ _ => []
  | .chunk buf => buf

/-- The answer is 200, with an id on a line of its own. -/
def HandsOut (sent : List Sent) (streamId : Bytes) : Prop :=
  status sent = some 200 ∧ body sent = streamId ++ [10]

/-- A request of `create` that is answered 200 has put a new, empty stream under the id. -/
def PutsNew (parse : Bytes → Except Exn Json) (floatText : Rat → Bytes) (streams : Streams c)
    (a : Arrival) : Prop :=
  a.hm.Creates → ∀ streams' sent streamId, serve parse floatText streams a = some (streams', sent) →
    HandsOut sent streamId → streams streamId = none ∧ streams' streamId = some (.create c 196000)

/-- A request has drawn the id, and none has destroyed the stream since. -/
def Held (history : List Arrival) (streamId : Bytes) : Prop :=
  ∃ before a later, history = before ++ a :: later ∧ a.hm.Creates ∧
    a.outside.drawn.text = streamId ∧ ∀ d ∈ later, ¬ d.hm.Asks streamId .destroy

theorem held_isStreamId {history : List Arrival} {streamId : Bytes}
    (held : Held history streamId) : IsStreamId streamId := by
  obtain ⟨_, a, _, _, _, rfl, _⟩ := held
  exact a.outside.drawn.isStreamId

theorem held_concat {history : List Arrival} {a : Arrival} {streamId : Bytes} :
    Held (history ++ [a]) streamId ↔ (a.hm.Creates ∧ a.outside.drawn.text = streamId) ∨
      (Held history streamId ∧ ¬ a.hm.Asks streamId .destroy) := by
  constructor
  · rintro ⟨before, d, later, split, creates, drawn, kept⟩
    rcases Run.concat_split split with ⟨_, rfl, _⟩ | ⟨rest, rfl, earlier⟩
    · exact .inl ⟨creates, drawn⟩
    · refine .inr ⟨⟨before, d, rest, earlier, creates, drawn, fun x member => ?_⟩, ?_⟩
      · exact kept x (List.mem_append_left _ member)
      · exact kept a (by simp)
  · rintro (⟨creates, drawn⟩ | ⟨⟨before, d, later, rfl, creates, drawn, kept⟩, last⟩)
    · exact ⟨history, a, [], rfl, creates, drawn, by simp⟩
    · refine ⟨before, d, later ++ [a], by simp, creates, drawn, fun x member => ?_⟩
      rcases List.mem_append.mp member with old | new
      · exact kept x old
      · cases List.mem_singleton.mp new
        exact last

section Live

variable {parse : Bytes → Except Exn Json} {floatText : Rat → Bytes} {streams streams' : Streams c}
  {a : Arrival}

theorem Handles.live {media : Media} {streamId body : Bytes} {action : Action}
    {entry entry' : Option (Stream c)} {script : Script}
    (handles : Handles parse floatText media streamId body action entry script entry') :
    entry'.isSome ↔ entry.isSome ∧ action ≠ .destroy := by
  cases handles <;> simp

theorem creates_not_asks (creates : a.hm.Creates) (streamId : Bytes) (action : Action) :
    ¬ a.hm.Asks streamId action :=
  fun asks => streamUri_ne_create streamId action (asks.2.symm.trans creates.2)

theorem Serves.live {streamId : Bytes} (serves : Serves parse floatText streams a streams')
    (isId : (streams streamId).isSome → IsStreamId streamId) :
    (streams' streamId).isSome ↔ (a.hm.Creates ∧ a.outside.drawn.text = streamId) ∨
      ((streams streamId).isSome ∧ ¬ a.hm.Asks streamId .destroy) := by
  cases serves with
  | nothing quiet unnamed =>
    constructor
    · exact fun live => .inr ⟨live, unnamed _ _ (isId live)⟩
    · rintro (⟨creates, _⟩ | ⟨live, _⟩)
      · exact absurd creates quiet
      · exact live
  | creates creates =>
    have others := creates_not_asks creates streamId .destroy
    by_cases drawn : a.outside.drawn.text = streamId
    · subst drawn
      refine iff_of_true ?_ (.inl ⟨creates, rfl⟩)
      cases stored : streams a.outside.drawn.text with
      | some s => rw [Streams.emplace_live stored, stored, Option.isSome_some]
      | none => rw [Streams.emplace_absent stored, Function.update_self, Option.isSome_some]
    · rw [Streams.emplace_other (Ne.symm drawn)]
      constructor
      · exact fun live => .inr ⟨live, others⟩
      · rintro (⟨_, same⟩ | ⟨live, _⟩)
        · exact absurd same drawn
        · exact live
  | @handles other action _ entry' _ asks handles =>
    have quiet : ¬ (a.hm.Creates ∧ a.outside.drawn.text = streamId) :=
      fun creates => creates_not_asks creates.1 other action asks
    rw [or_iff_right quiet]
    by_cases same : streamId = other
    · subst same
      have destroys : a.hm.Asks streamId .destroy ↔ action = .destroy := by
        constructor
        · exact fun asks' => (streamUri_injective (asks.2.symm.trans asks'.2)).2
        · rintro rfl
          exact asks
      rw [Function.update_self, handles.live, destroys]
    · have unasked : ¬ a.hm.Asks streamId .destroy :=
        fun asks' => same (streamUri_injective (asks'.2.symm.trans asks.2)).1
      rw [Function.update_of_ne same]
      exact (and_iff_left unasked).symm

theorem run_held {history : List Arrival} {sents : List (List Sent)}
    (reached : Run.run (serve parse floatText) noStreams history = some (streams, sents))
    (streamId : Bytes) : (streams streamId).isSome ↔ Held history streamId := by
  let Tracks (history : List Arrival) (streams : Streams c) : Prop :=
    streams.Ready ∧ ∀ streamId, (streams streamId).isSome ↔ Held history streamId
  have initial : Tracks [] noStreams :=
    ⟨noStreams_ready, fun streamId => by simp [noStreams, Held]⟩
  obtain ⟨t, ts, same, _, live⟩ := Run.run_induct (fun history _ streams => Tracks history streams)
    (fun _ _ => True) initial
    (fun history _ streams a _ ⟨ready, live⟩ _ =>
      let ⟨streams', sent, answers, serves, ready'⟩ := serve_spec parse floatText ready a
      ⟨streams', sent, answers.serve, ready', fun streamId => by
        rw [serves.live fun there => held_isStreamId ((live streamId).mp there), live,
          held_concat]⟩)
    history (Run.along_of_forall fun _ _ => trivial)
  cases reached.symm.trans same
  exact live streamId

end Live

section Answer

@[simp] theorem status_head (code : Int) (extraHeaders : Bytes) (sent : List Sent) :
    status (.head code extraHeaders :: sent) = some code := rfl

@[simp] theorem body_head (code : Int) (extraHeaders : Bytes) (sent : List Sent) :
    body (.head code extraHeaders :: sent) = body sent := by
  simp [body]

@[simp] theorem body_chunks (chunks : List Bytes) : body (chunks.map .chunk) = chunks.flatten := by
  simp [body, List.flatMap_map, List.flatMap_id']

theorem chunked_flatten (part : Bytes) : (chunked part).flatten = part := by
  rw [chunked, List.flatten_append, List.flatten_singleton]
  exact Blocks.flatten_blocks_append_rest (by decide) part

theorem flatten_flatMap_chunked (written : List Bytes) :
    (written.flatMap chunked).flatten = written.flatten := by
  induction written with
  | nil => rfl
  | cons part written ih =>
    rw [List.flatMap_cons, List.flatten_append, chunked_flatten, ih, List.flatten_cons]

theorem sent_stream (code : Int) (headers : Headers) (ops : List StreamOp) :
    ∃ chunks : List Bytes, (⟨[.header code headers, .stream ops], none⟩ : Script).sent =
        .head code (extraHeaders headers) :: chunks.map .chunk ∧
      chunks.flatten = (parts [] ops).flatten := by
  let opened : Response :=
    { sbuf := { ChunkedHTTPResponseBuf.create [] with
        nc := mgSendHead [] code (extraHeaders headers) }
      headerSent := true }
  have header : (Response.create []).header code headers = .done opened := rfl
  have sent_head : opened.headerSent = true := rfl
  obtain ⟨res, done, sent⟩ := stream_destroy sent_head rfl ops
  refine ⟨(parts [] ops).flatMap chunked ++ [[]], ?_, ?_⟩
  · unfold Script.sent Script.respond
    rw [apply_pair, Call.apply, header, Imperative.Outcome.done_bind, Call.apply, done]
    exact sent
  · rw [List.flatten_append, flatten_flatMap_chunked]
    exact List.append_nil _

theorem createScript_handsOut (drawn streamId : Bytes) :
    HandsOut (createScript drawn).sent streamId ↔ streamId = drawn := by
  obtain ⟨chunks, sent, written⟩ := sent_stream 200 [(str "Content-Type", str "text/plain")]
    (.write drawn :: endl)
  have line : (parts [] (.write drawn :: endl)).flatten = drawn ++ [10] := by
    simp [parts, endl]
  rw [createScript, sent, HandsOut, status_head, body_head, body_chunks, written, line,
    and_iff_right rfl, List.append_left_inj, eq_comm]

end Answer

section Ids

variable (parse : Bytes → Except Exn Json) (floatText : Rat → Bytes) {streams : Streams c}
  {a : Arrival}

theorem putsNew_iff (creates : a.hm.Creates) :
    PutsNew parse floatText streams a ↔ streams a.outside.drawn.text = none := by
  have answers : Answers parse floatText streams a _ _ := answers_creates creates
  have served := answers.serve
  constructor
  · intro new
    exact (new creates _ _ _ served ((createScript_handsOut _ _).mpr rfl)).1
  · intro absent _ streams' sent streamId served' handsOut
    cases served.symm.trans served'
    cases (createScript_handsOut _ _).mp handsOut
    refine ⟨absent, ?_⟩
    rw [Streams.emplace_absent absent, Function.update_self]

end Ids

/-- Every run of the server, for every sequence of drawn ids. Each `create` is answered 200 and
with the id that it has drawn. The stream under it is a new one, in all of the run, exactly if
no `create` draws an id that an earlier one has drawn and whose stream no request has destroyed
in between. -/
theorem new_streams_iff (c : Codec) (parse : Bytes → Except Exn Json) (floatText : Rat → Bytes)
    (arrivals : List Arrival) :
    (∃ streams sents, Run.run (serve parse floatText) (noStreams : Streams c) arrivals =
      some (streams, sents)) ∧
    Run.Along (serve parse floatText) (fun (streams : Streams c) a => a.hm.Creates →
      ∃ streams' sent, serve parse floatText streams a = some (streams', sent) ∧
        ∀ streamId, HandsOut sent streamId ↔ streamId = a.outside.drawn.text) noStreams arrivals ∧
    (Run.Along (serve parse floatText) (PutsNew parse floatText) (noStreams : Streams c) arrivals ↔
      Run.Each (fun before a => a.hm.Creates → ¬ Held before a.outside.drawn.text) arrivals) := by
  refine ⟨?_, ?_, ?_, ?_⟩
  · obtain ⟨streams, sents, reached, _⟩ := serve_runs (c := c) parse floatText arrivals
    exact ⟨streams, sents, reached⟩
  · intro before a after streams sents _ _ creates
    exact ⟨_, _, (answers_creates creates).serve, createScript_handsOut _⟩
  · intro along before a after split creates held
    obtain ⟨streams, sents, reached, _⟩ := serve_runs (c := c) parse floatText before
    have absent := (putsNew_iff parse floatText creates).mp
      (along before a after streams sents split reached)
    have live := (run_held reached a.outside.drawn.text).mpr held
    rw [absent] at live
    contradiction
  · intro each before a after streams sents split reached
    by_cases creates : a.hm.Creates
    · refine (putsNew_iff parse floatText creates).mpr ?_
      by_contra live
      refine each before a after split creates ((run_held reached _).mp ?_)
      exact Option.isSome_iff_ne_none.mpr live
    · exact fun yes => absurd yes creates

def createA : Arrival := post (str "/stream/create") [] idOfA

def appendA : Arrival :=
  post (streamUri idOfA.text .append) (str "\x7b\"filename\":\"a\"\x7d") idOfA

def parseA (s : Bytes) : Except Exn Json :=
  if s = str "\x7b\"filename\":\"a\"\x7d" then
    .ok (.object [(str "filename", .string (str "a"))])
  else parseNothing s

def ofA : Stream Codec.plain := (Stream.create Codec.plain 196000).append (str "a")

theorem reaches_ofA : ∃ streams sents,
    Run.run (serve (c := Codec.plain) parseA fun _ => []) noStreams [createA, appendA] =
      some (streams, sents) ∧ streams idOfA.text = some ofA := by
  let new : Stream Codec.plain := .create Codec.plain 196000
  let created : Streams Codec.plain := noStreams.emplace idOfA.text new
  let appended : Streams Codec.plain := Function.update created idOfA.text (some ofA)
  have asks : appendA.hm.Asks idOfA.text .append := ⟨rfl, rfl⟩
  have fresh : (noStreams : Streams Codec.plain) idOfA.text = none := rfl
  have there : created idOfA.text = some new :=
    (congrFun (Streams.emplace_absent fresh new) _).trans (Function.update_self _ _ _)
  have first : Answers parseA (fun _ => []) noStreams createA created _ :=
    answers_creates ⟨rfl, rfl⟩
  have parsed : parseA appendA.hm.body =
      .ok (.object [(str "filename", .string (str "a"))]) := if_pos rfl
  have handles : Handles parseA (fun _ => []) appendA.outside.media idOfA.text appendA.hm.body
      .append (created idOfA.text) _ (some ofA) :=
    there ▸ Handles.appends parsed rfl rfl
  have second : Answers parseA (fun _ => []) created appendA appended _ :=
    answers_asks idOfA.isStreamId asks handles
  exact ⟨appended, _, Run.run_cons_eq_some.mpr ⟨created, _, _, first.serve,
    Run.run_cons_eq_some.mpr ⟨appended, _, _, second.serve, rfl, rfl⟩, rfl⟩,
    Function.update_self _ _ _⟩

/-- The second client that draws the id is given the playlist of the first one. -/
theorem same_id_same_playlist :
    (∃ (streams streams' : Streams Codec.plain) (sents : List (List Sent)) (sent : List Sent)
        (s : Stream Codec.plain),
      Run.run (serve parseA fun _ => []) noStreams [createA, appendA] = some (streams, sents) ∧
      serve parseA (fun _ => []) streams createA = some (streams', sent) ∧
      HandsOut sent idOfA.text ∧ streams' idOfA.text = some s ∧ s.decoders ≠ []) ∧
    ¬ Run.Along (serve parseA fun _ => []) (PutsNew parseA fun _ => [])
      (noStreams : Streams Codec.plain) [createA, appendA, createA] := by
  obtain ⟨appended, sents, reached, there⟩ := reaches_ofA
  have creates : createA.hm.Creates := ⟨rfl, rfl⟩
  have third : Answers parseA (fun _ => []) appended createA _ _ := answers_creates creates
  refine ⟨⟨appended, _, _, _, ofA, reached, third.serve, (createScript_handsOut _ _).mpr rfl, ?_, ?_⟩,
    ?_⟩
  · exact (congrFun (Streams.emplace_live there _) _).trans there
  · exact List.cons_ne_nil _ _
  · intro along
    have absent := (putsNew_iff parseA (fun _ => []) creates).mp
      (along [createA, appendA] createA [] appended _ rfl reached)
    exact absurd (there.symm.trans absent) (Option.some_ne_none _)

end HttpAudioServer

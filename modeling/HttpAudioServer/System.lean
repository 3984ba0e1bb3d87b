import HttpAudioServer.Connections
import HttpAudioServer.Playlist
import HttpAudioServer.Routes

/-! The server as one machine: a step is one request, from its arrival to the end of its answer.
A request for a stream finds only what is stored under its id, and changes only that. -/
namespace HttpAudioServer

variable {c : Codec}

/-- A request, and what the outside gives while it is handled. -/
structure Arrival where
  hm : HttpMessage
  outside : Outside

/-- What a request does to the streams, and what it puts on its connection. An exception that
leaves the event handler would end the server. -/
def serve (parse : Bytes → Except Exn Json) (floatText : Rat → Bytes) (streams : Streams c)
    (a : Arrival) : Option (Streams c × List Sent) :=
  match eventHandler (requestMap parse floatText a.outside) streams [] (.httpRequest a.hm) with
  | .done served => some served
  | .thrown _ _ | .running => none

def noStreams : Streams c := fun _ => none

def Streams.Ready (streams : Streams c) : Prop := ∀ streamId s, streams streamId = some s → s.Ready

/-- A request for a stream: from what is stored under the id to the calls of the handler and
what is stored after them. -/
inductive Handles (parse : Bytes → Except Exn Json) (floatText : Rat → Bytes) (media : Media)
    (streamId body : Bytes) : Action → Option (Stream c) → Script → Option (Stream c) → Prop where
  | unknown (action : Action) : Handles parse floatText media streamId body action
      none ⟨[.error 404 (streamNotFound streamId)], none⟩ none
  | unparsed {s : Stream c} {e : Exn} (malformed : parse body = .error e) :
      Handles parse floatText media streamId body .append (some s) ⟨[], some e⟩ (some s)
  | incomplete {s : Stream c} {resource : Json} (parsed : parse body = .ok resource)
      (missing : resource.find (str "filename") = none) :
      Handles parse floatText media streamId body .append (some s)
        ⟨[.error 400 (str "Invalid query")], none⟩ (some s)
  | untyped {s : Stream c} {resource fn : Json} {e : Exn} (parsed : parse body = .ok resource)
      (found : resource.find (str "filename") = some fn) (other : fn.getString = .error e) :
      Handles parse floatText media streamId body .append (some s) ⟨[], some e⟩ (some s)
  | appends {s : Stream c} {resource fn : Json} {filename : Bytes}
      (parsed : parse body = .ok resource) (found : resource.find (str "filename") = some fn)
      (typed : fn.getString = .ok filename) :
      Handles parse floatText media streamId body .append (some s)
        ⟨[.ok 200 (str "Appended file " ++ filename)], none⟩ (some (s.append filename))
  | returns {s : Stream c} {l : Stream.Advance c} (done : s.advance media 240000 = .done l) :
      Handles parse floatText media streamId body .advance (some s)
        ⟨[advanceHead, .stream [], .stream (Stream.segmentOps floatText l.metadata l.osBufData)],
          none⟩ (some l.stream)
  | throws {s : Stream c} {l : Stream.Advance c} {e : Exn}
      (thrown : s.advance media 240000 = .thrown e l) :
      Handles parse floatText media streamId body .advance (some s)
        ⟨[advanceHead, .stream []], some e⟩ (some l.stream)
  | erases {s : Stream c} : Handles parse floatText media streamId body .destroy (some s)
        ⟨[.ok 200 (str "Stream successfully erased")], none⟩ none

section Handlers

theorem Script.apply_single (call : Call) (res : Response) :
    (⟨[call], none⟩ : Script).apply res = call.apply res := by
  unfold Script.apply applyCalls
  cases call.apply res <;> rfl

variable {parse : Bytes → Except Exn Json} {floatText : Rat → Bytes} {media : Media}
  {streamId body : Bytes} {action : Action} {entry entry' : Option (Stream c)} {script : Script}

theorem Handles.follows
    (handles : Handles parse floatText media streamId body action entry script entry')
    {req : Request} {streams : Streams c} (named : req.matcher.getD 1 [] = streamId)
    (asked : req.body = body) (stored : streams streamId = entry) :
    Follows (action.handler parse floatText media) req streams script
      (Function.update streams streamId entry') := by
  subst named asked
  have same : Function.update streams (req.matcher.getD 1 []) entry = streams := by
    rw [← stored, Function.update_eq_self]
  cases handles with
  | unknown action =>
    intro nc
    rw [same, Script.apply_single]
    cases action <;>
      simp only [Action.handler, handleStreamAppend, handleStreamAdvance, handleStreamDestroy,
        stored] <;> rfl
  | unparsed malformed =>
    intro nc
    simp only [same, Action.handler, handleStreamAppend, stored, malformed]
    rfl
  | incomplete parsed missing =>
    intro nc
    simp only [same, Action.handler, handleStreamAppend, stored, parsed, missing,
      Script.apply_single, Call.apply]
  | untyped parsed found other =>
    intro nc
    simp only [same, Action.handler, handleStreamAppend, stored, parsed, found, other]
    rfl
  | @appends s resource fn filename parsed found typed =>
    intro nc
    have fresh : (Response.create nc).headerSent = false := rfl
    obtain ⟨res, ok, _⟩ := reply_first fresh "ok" 200 (str "Appended file " ++ filename)
    simp only [Action.handler, handleStreamAppend, stored, parsed, found, typed,
      Script.apply_single, Call.apply, Response.ok, ok]
    rfl
  | returns done => exact advance_returns floatText stored done
  | throws thrown => exact advance_throws floatText stored thrown
  | erases =>
    intro nc
    have fresh : (Response.create nc).headerSent = false := rfl
    obtain ⟨res, ok, _⟩ := reply_first fresh "ok" 200 (str "Stream successfully erased")
    simp only [Action.handler, handleStreamDestroy, stored, Script.apply_single, Call.apply,
      Response.ok, ok]
    rfl

theorem handles_total (parse : Bytes → Except Exn Json) (floatText : Rat → Bytes) (media : Media)
    (streamId body : Bytes) (action : Action) (ready : ∀ s, entry = some s → s.Ready) :
    ∃ script entry', Handles parse floatText media streamId body action entry script entry' ∧
      ∀ s, entry' = some s → s.Ready := by
  cases entry with
  | none => exact ⟨_, _, .unknown action, ready⟩
  | some s =>
    have live : s.Ready := ready s rfl
    cases action with
    | append =>
      cases parsed : parse body with
      | error e => exact ⟨_, _, .unparsed parsed, ready⟩
      | ok resource =>
        cases found : resource.find (str "filename") with
        | none => exact ⟨_, _, .incomplete parsed found, ready⟩
        | some fn =>
          cases typed : fn.getString with
          | error e => exact ⟨_, _, .untyped parsed found typed, ready⟩
          | ok filename =>
            refine ⟨_, _, .appends parsed found typed, ?_⟩
            intro t same
            cases same
            exact (Stream.Steps.appends filename 0).ready live
    | advance =>
      have ends := Stream.advance_acts media 240000 live
      cases advanced : s.advance media 240000 with
      | done l =>
        rw [advanced] at ends
        obtain ⟨m, acts, _, finishes⟩ := ends
        refine ⟨_, _, .returns advanced, ?_⟩
        intro t same
        cases same
        exact finishes.ready (acts.ready live)
      | thrown e l =>
        rw [advanced] at ends
        obtain ⟨m, acts, fails⟩ := ends
        refine ⟨_, _, .throws advanced, ?_⟩
        intro t same
        cases same
        exact fails.ready (acts.ready live)
      | running =>
        rw [advanced] at ends
        exact ends.elim
    | destroy =>
      refine ⟨_, _, .erases, ?_⟩
      simp

end Handlers

section Requests

variable {parse : Bytes → Except Exn Json} {floatText : Rat → Bytes} {streams : Streams c}
  {a : Arrival}

/-- What a request does, on any connection. -/
def Answers (parse : Bytes → Except Exn Json) (floatText : Rat → Bytes) (streams : Streams c)
    (a : Arrival) (streams' : Streams c) (sent : List Sent) : Prop :=
  ∀ nc, eventHandler (requestMap parse floatText a.outside) streams nc (.httpRequest a.hm) =
    .done (streams', nc ++ sent)

theorem Answers.serve {streams' : Streams c} {sent : List Sent}
    (answers : Answers parse floatText streams a streams' sent) :
    serve parse floatText streams a = some (streams', sent) := by
  simp only [HttpAudioServer.serve, answers [], List.nil_append]

theorem answers_follows {descr : RequestMapEntry (Streams c)} {sm : List Bytes} {script : Script}
    {streams' : Streams c}
    (found : suitable a.hm (requestMap parse floatText a.outside) = some (descr, sm))
    (follows : Follows descr.handler ⟨a.hm.uri, a.hm.body, sm⟩ streams script streams') :
    Answers parse floatText streams a streams' script.sent := by
  intro nc
  rw [eventHandler_respond nc found follows, script.respond_eq]
  rfl

/-- The answer to a request that finds no handler. -/
def notRouted (hm : HttpMessage) : Script where
  calls := [.error 404 (str "Requested resource \"" ++ hm.uri ++ str "\" not found for method " ++
    hm.method)]

theorem respond_error (nc : Connection) (code : Int) (msg : Bytes) :
    (⟨[.error code msg], none⟩ : Script).respond nc = answerError nc code msg := by
  have fresh : (Response.create nc).headerSent = false := rfl
  obtain ⟨res, done, _⟩ := reply_first fresh "error" code msg
  unfold Script.respond answerError
  rw [Script.apply_single, Call.apply, Response.error, done]
  rfl

theorem answers_notRouted
    (nothing : suitable a.hm (requestMap (c := c) parse floatText a.outside) = none) :
    Answers parse floatText streams a streams (notRouted a.hm).sent := by
  intro nc
  have responds := (notRouted a.hm).respond_eq nc
  rw [notRouted, respond_error] at responds
  simp only [eventHandler, nothing, responds]
  rfl

theorem answers_malformed {streamId : Bytes} {action : Action} (malformed : ¬ IsStreamId streamId)
    (asks : a.hm.Asks streamId action) :
    Answers parse floatText streams a streams (notRouted a.hm).sent :=
  answers_notRouted (suitable_malformed parse floatText a.outside malformed asks)

theorem answers_asks {streamId : Bytes} {action : Action} {script : Script}
    {entry' : Option (Stream c)} (isId : IsStreamId streamId) (asks : a.hm.Asks streamId action)
    (handles : Handles parse floatText a.outside.media streamId a.hm.body action
      (streams streamId) script entry') :
    Answers parse floatText streams a (Function.update streams streamId entry') script.sent :=
  answers_follows (suitable_asks parse floatText a.outside isId asks)
    (handles.follows rfl rfl rfl)

def indexScript (ops : List StreamOp) : Script where
  calls := [.header 200 [(str "Content-Type", str "text/html; charset=utf-8")], .stream ops]

def createScript (streamId : Bytes) : Script where
  calls := [.header 200 [(str "Content-Type", str "text/plain")], .stream (.write streamId :: endl)]

theorem apply_pair (first second : Call) (res : Response) :
    (⟨[first, second], none⟩ : Script).apply res = (first.apply res).bind second.apply := by
  unfold Script.apply applyCalls
  cases first.apply res with
  | done res => exact Script.apply_single second res
  | thrown e res => rfl
  | running => rfl

theorem index_follows {page : Option Bytes} {ops : List StreamOp} {req : Request}
    (piped : genericPipe pipeOps page [] = some ops) :
    Follows (handleIndex page) req streams (indexScript ops) streams := by
  intro nc
  rw [indexScript, apply_pair]
  simp only [handleIndex, piped]
  rfl

theorem create_follows (drawn : Bytes) (req : Request) :
    Follows (handleStreamCreate drawn) req streams (createScript drawn)
      (streams.emplace drawn (.create c 196000)) := by
  intro nc
  rw [createScript, apply_pair]
  rfl

theorem answers_creates (creates : a.hm.Creates) :
    Answers parse floatText streams a
      (streams.emplace a.outside.drawn.text (.create c 196000))
      (createScript a.outside.drawn.text).sent :=
  answers_follows (suitable_creates parse floatText a.outside creates) (create_follows _ _)

/-- What a request can do to the streams. -/
inductive Serves (parse : Bytes → Except Exn Json) (floatText : Rat → Bytes) (streams : Streams c)
    (a : Arrival) : Streams c → Prop where
  | nothing (quiet : ¬ a.hm.Creates)
      (unnamed : ∀ streamId action, IsStreamId streamId → ¬ a.hm.Asks streamId action) :
      Serves parse floatText streams a streams
  | creates (creates : a.hm.Creates) :
      Serves parse floatText streams a (streams.emplace a.outside.drawn.text (.create c 196000))
  | handles {streamId : Bytes} {action : Action} {script : Script} {entry' : Option (Stream c)}
      (isId : IsStreamId streamId) (asks : a.hm.Asks streamId action)
      (handles : Handles parse floatText a.outside.media streamId a.hm.body action
        (streams streamId) script entry') :
      Serves parse floatText streams a (Function.update streams streamId entry')

theorem Streams.Ready.update (ready : streams.Ready) {streamId : Bytes} {entry : Option (Stream c)}
    (readyEntry : ∀ s, entry = some s → s.Ready) :
    Streams.Ready (Function.update streams streamId entry) := by
  intro other s stored
  by_cases same : other = streamId
  · subst same
    rw [Function.update_self] at stored
    exact readyEntry s stored
  · rw [Function.update_of_ne same] at stored
    exact ready other s stored

theorem Streams.emplace_live {streamId : Bytes} {t : Stream c} (live : streams streamId = some t)
    (s : Stream c) : streams.emplace streamId s = streams := by
  simp only [Streams.emplace, live]

theorem Streams.emplace_absent {streamId : Bytes} (absent : streams streamId = none)
    (s : Stream c) :
    streams.emplace streamId s = Function.update streams streamId (some s) := by
  simp only [Streams.emplace, absent]

theorem Streams.emplace_other {streamId other : Bytes} (different : other ≠ streamId)
    (s : Stream c) : streams.emplace streamId s other = streams other := by
  cases stored : streams streamId with
  | some t => rw [Streams.emplace_live stored]
  | none =>
    rw [Streams.emplace_absent stored]
    exact Function.update_of_ne different _ _

theorem Streams.Ready.emplace (ready : streams.Ready) {s : Stream c} (readyStream : s.Ready)
    (streamId : Bytes) : (streams.emplace streamId s).Ready := by
  cases stored : streams streamId with
  | some t =>
    rw [Streams.emplace_live stored]
    exact ready
  | none =>
    rw [Streams.emplace_absent stored]
    refine ready.update fun t same => ?_
    cases same
    exact readyStream

/-- Every request is answered, and what it does is one of these. -/
theorem serve_spec (parse : Bytes → Except Exn Json) (floatText : Rat → Bytes)
    (ready : streams.Ready) (a : Arrival) :
    ∃ streams' sent, Answers parse floatText streams a streams' sent ∧
      Serves parse floatText streams a streams' ∧ streams'.Ready := by
  have quiet_get : a.hm.method = str "GET" → ¬ a.hm.Creates ∧
      ∀ streamId action, IsStreamId streamId → ¬ a.hm.Asks streamId action := by
    intro get
    have other : a.hm.method ≠ str "POST" := fun post => get_ne_post (get.symm.trans post)
    exact ⟨fun creates => other creates.1, fun _ _ _ asks => other asks.1⟩
  rcases suitable_cases (c := c) parse floatText a.outside a.hm with
    nothing | ⟨sm, get, found⟩ | creates | ⟨streamId, action, isId, asks⟩
  · refine ⟨_, _, answers_notRouted nothing, .nothing (fun creates => ?_) ?_, ready⟩
    · exact absurd (nothing.symm.trans (suitable_creates parse floatText a.outside creates)) (by simp)
    · intro streamId action isId asks
      exact absurd (nothing.symm.trans (suitable_asks parse floatText a.outside isId asks)) (by simp)
  · obtain ⟨ops, piped⟩ := genericPipe_ends pipeOps a.outside.page []
    obtain ⟨quiet, unnamed⟩ := quiet_get get
    exact ⟨_, _, answers_follows found (index_follows piped), .nothing quiet unnamed, ready⟩
  · exact ⟨_, _, answers_creates creates, .creates creates,
      ready.emplace (Stream.create_ready 196000) _⟩
  · obtain ⟨script, entry', handles, readyEntry⟩ := handles_total parse floatText a.outside.media
      streamId a.hm.body action (ready streamId)
    exact ⟨_, _, answers_asks isId asks handles, .handles isId asks handles,
      ready.update readyEntry⟩

theorem noStreams_ready : (noStreams : Streams c).Ready := by
  intro streamId s stored
  contradiction

theorem serve_runs (parse : Bytes → Except Exn Json) (floatText : Rat → Bytes)
    (arrivals : List Arrival) : ∃ streams sents,
      Run.run (serve parse floatText) (noStreams : Streams c) arrivals = some (streams, sents) ∧
        streams.Ready :=
  Run.run_induct (fun _ _ (streams : Streams c) => streams.Ready) (fun _ _ => True) noStreams_ready
    (fun _ _ _ a _ ready _ =>
      let ⟨streams', sent, answers, _, ready'⟩ := serve_spec parse floatText ready a
      ⟨streams', sent, answers.serve, ready'⟩)
    arrivals (Run.along_of_forall fun _ _ => trivial)

theorem ready_of_run {arrivals : List Arrival} {sents : List (List Sent)}
    (reached : Run.run (serve parse floatText) noStreams arrivals = some (streams, sents)) :
    streams.Ready := by
  obtain ⟨streams', sents', same, ready⟩ := serve_runs (c := c) parse floatText arrivals
  cases reached.symm.trans same
  exact ready

end Requests

section Samples

def sixteen (ch : UInt8) (alphanum : isAlphanum ch = true) : StreamId where
  text := List.replicate 16 ch
  isStreamId := ⟨by simp, fun x member => (List.eq_of_mem_replicate member).symm ▸ alphanum⟩

def idOfA : StreamId := sixteen 65 rfl

def idOfB : StreamId := sixteen 66 rfl

def post (uri body : Bytes) (drawn : StreamId) : Arrival where
  hm := ⟨str "POST", uri, body⟩
  outside := ⟨none, drawn, .ofFiles fun _ _ => []⟩

def parseNothing (_ : Bytes) : Except Exn Json :=
  .error ⟨"parse error - unexpected end of input"⟩

end Samples

end HttpAudioServer

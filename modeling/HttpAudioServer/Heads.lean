import HttpAudioServer.Main
import HttpAudioServer.Playback

/-! The heads sent for one request. The response of the handler guards its own head, and the
error response is another one on the same connection. -/
namespace HttpAudioServer

inductive Call where
  | header (code : Int) (headers : Headers)
  | stream (ops : List StreamOp)
  | ok (code : Int) (msg : Bytes)
  | error (code : Int) (msg : Bytes)
deriving DecidableEq, Repr

/-- The calls that send a head, if none has been sent. -/
def Call.heads : Call → Bool
  | .stream _ => false
  | .header _ _ | .ok _ _ | .error _ _ => true

def Call.apply (res : Response) : Call → Imperative.Outcome Exn Response
  | .header code headers => res.header code headers
  | .stream ops => res.stream ops
  | .ok code msg => res.ok code msg
  | .error code msg => res.error code msg

/-- A handler as the calls that it makes, and the exception that it throws after them. -/
structure Script where
  calls : List Call
  exn : Option Exn := none
deriving DecidableEq, Repr

def applyCalls (res : Response) : List Call → Imperative.Outcome Exn Response
  | [] => .done res
  | call :: calls => (call.apply res).bind fun res => applyCalls res calls

def Script.apply (script : Script) (res : Response) : Imperative.Outcome Exn Response :=
  (applyCalls res script.calls).bind fun res =>
    match script.exn with
    | some e => .thrown e res
    | none => .done res

/-- On this request and in this state the handler makes the calls of the script on the new
response, and leaves the state `st'`. -/
def Follows {σ : Type} (handler : RequestHandler σ) (req : Request) (st : σ) (script : Script)
    (st' : σ) : Prop :=
  ∀ nc, handler req (st, .create nc) = (script.apply (.create nc)).map fun res => (st', res)

/-- The first call sends no head, or it is the only one that would and the handler returns. -/
def Script.SendsOnce (script : Script) : Prop :=
  match script.calls with
  | [] => True
  | call :: calls =>
    call.heads = true → (∀ later ∈ calls, later.heads = false) ∧ script.exn = none

def heads (sent : List Sent) : Nat := sent.countP fun
  | .head _ _ => true
  | .chunk _ => false

@[simp] theorem heads_nil : heads [] = 0 := rfl

@[simp] theorem heads_append (sent more : List Sent) :
    heads (sent ++ more) = heads sent + heads more := List.countP_append

@[simp] theorem heads_head (code : Int) (extraHeaders : Bytes) (sent : List Sent) :
    heads (.head code extraHeaders :: sent) = heads sent + 1 := by
  simp [heads]

@[simp] theorem heads_chunks (chunks : List Bytes) : heads (chunks.map .chunk) = 0 := by
  simp [heads, List.countP_map, List.countP_eq_zero]

section Growth

/-- The connection has grown by `n` heads and any chunks. -/
def Grows (n : Nat) (nc nc' : Connection) : Prop := ∃ sent, nc' = nc ++ sent ∧ heads sent = n

variable {nc nc' nc'' : Connection}

theorem Grows.refl (nc : Connection) : Grows 0 nc nc := ⟨[], by simp, rfl⟩

theorem Grows.trans {n m : Nat} (first : Grows n nc nc') (second : Grows m nc' nc'') :
    Grows (n + m) nc nc'' := by
  obtain ⟨sent, rfl, rfl⟩ := first
  obtain ⟨more, rfl, rfl⟩ := second
  exact ⟨sent ++ more, by simp, by simp⟩

theorem grows_chunks (nc : Connection) (chunks : List Bytes) :
    Grows 0 nc (nc ++ chunks.map .chunk) := ⟨_, rfl, heads_chunks chunks⟩

theorem grows_head (nc : Connection) (code : Int) (extraHeaders : Bytes) :
    Grows 1 nc (mgSendHead nc code extraHeaders) := ⟨_, rfl, by simp⟩

theorem sync_grows (b : ChunkedHTTPResponseBuf) : Grows 0 b.nc b.sync.nc :=
  grows_chunks b.nc [b.pending]

theorem applyAll_grows (b : ChunkedHTTPResponseBuf) (ops : List StreamOp) :
    ∃ b', StreamOp.applyAll b ops = .done b' ∧ Grows 0 b.nc b'.nc := by
  induction ops generalizing b with
  | nil => exact ⟨b, rfl, .refl _⟩
  | cons op ops ih =>
    have first : ∃ b', op.apply b = .done b' ∧ Grows 0 b.nc b'.nc := by
      cases op with
      | write s =>
        obtain ⟨b', written, wrote⟩ := b.xsputn_wrote s
        exact ⟨b', written, wrote.sent ▸ grows_chunks _ _⟩
      | put ch => exact ⟨_, rfl, (b.sputc_wrote ch).sent ▸ grows_chunks _ _⟩
      | flush => exact ⟨_, rfl, sync_grows b⟩
    obtain ⟨b', applied, grown⟩ := first
    obtain ⟨b'', rest, more⟩ := ih b'
    exact ⟨b'', by rw [StreamOp.applyAll, applied]; exact rest, grown.trans more⟩

theorem destroy_grows (res : Response) : Grows 0 res.sbuf.nc res.destroy := by
  unfold Response.destroy
  split
  · exact (sync_grows res.sbuf).trans (grows_chunks _ [[]])
  · exact .refl _

end Growth

section Calls

variable {res : Response}

theorem header_first (fresh : res.headerSent = false) (code : Int) (headers : Headers) :
    ∃ res', res.header code headers = .done res' ∧ res'.headerSent = true ∧
      Grows 1 res.sbuf.nc res'.sbuf.nc := by
  unfold Response.header
  rw [fresh]
  exact ⟨_, rfl, rfl, grows_head _ _ _⟩

theorem stream_open (sent : res.headerSent = true) (ops : List StreamOp) :
    ∃ res', res.stream ops = .done res' ∧ res'.headerSent = true ∧
      Grows 0 res.sbuf.nc res'.sbuf.nc := by
  obtain ⟨b, applied, grown⟩ := applyAll_grows res.sbuf ops
  exact ⟨{ res with sbuf := b }, by rw [Response.stream, if_pos sent, applied]; rfl, sent, grown⟩

theorem reply_first (fresh : res.headerSent = false) (status : String) (code : Int) (msg : Bytes) :
    ∃ res', Response.reply status res code msg = .done res' ∧ res'.headerSent = true ∧
      Grows 1 res.sbuf.nc res'.sbuf.nc := by
  obtain ⟨opened, header, sent, head⟩ :=
    header_first fresh code [(str "Content-type", str "application/json")]
  obtain ⟨res', body, still, chunks⟩ := stream_open sent
    (.write ((Json.ofFields [(str "status", .string (str status)),
      (str "msg", .string msg)]).dumpPretty fun _ => []) :: endl)
  refine ⟨res', ?_, still, head.trans chunks⟩
  unfold Response.reply
  rw [header]
  exact body

theorem Call.first {call : Call} (sends : call.heads = true) (fresh : res.headerSent = false) :
    ∃ res', call.apply res = .done res' ∧ res'.headerSent = true ∧
      Grows 1 res.sbuf.nc res'.sbuf.nc := by
  cases call with
  | header code headers => exact header_first fresh code headers
  | stream ops => contradiction
  | ok code msg => exact reply_first fresh "ok" code msg
  | error code msg => exact reply_first fresh "error" code msg

theorem Call.again {call : Call} (sends : call.heads = true) (sent : res.headerSent = true) :
    ∃ e, call.apply res = .thrown e res := by
  have header : ∀ code headers, res.header code headers =
      .thrown ⟨"HTTP header already sent!"⟩ res := by
    intro code headers
    rw [Response.header, if_pos sent]
  cases call with
  | header code headers => exact ⟨_, header code headers⟩
  | stream ops => contradiction
  | ok code msg => exact ⟨_, by rw [Call.apply, Response.ok, Response.reply, header]; rfl⟩
  | error code msg => exact ⟨_, by rw [Call.apply, Response.error, Response.reply, header]; rfl⟩

def EndsWith (thrown : Bool) (res : Response) : Imperative.Outcome Exn Response → Prop
  | .done res' => thrown = false ∧ res' = res
  | .thrown _ res' => thrown = true ∧ res' = res
  | .running => False

theorem EndsWith.bind {o : Imperative.Outcome Exn Response} {res' : Response} {thrown : Bool}
    {f : Response → Imperative.Outcome Exn Response} (first : EndsWith false res o)
    (second : EndsWith thrown res' (f res)) : EndsWith thrown res' (o.bind f) := by
  cases o with
  | done s =>
    obtain ⟨_, rfl⟩ := first
    exact second
  | thrown e s => exact absurd first.1 (by decide)
  | running => exact first.elim

theorem EndsWith.thrown_bind {o : Imperative.Outcome Exn Response}
    {f : Response → Imperative.Outcome Exn Response} (first : EndsWith true res o) :
    EndsWith true res (o.bind f) := by
  cases o with
  | done s => exact absurd first.1 (by decide)
  | thrown e s => exact first
  | running => exact first.elim

/-- Once the head is sent, the calls go on up to the first one that would send another. -/
theorem applyCalls_sent (sent : res.headerSent = true) (calls : List Call) :
    ∃ res', EndsWith (calls.any Call.heads) res' (applyCalls res calls) ∧
      res'.headerSent = true ∧ Grows 0 res.sbuf.nc res'.sbuf.nc := by
  induction calls generalizing res with
  | nil => exact ⟨res, ⟨rfl, rfl⟩, sent, .refl _⟩
  | cons call calls ih =>
    cases sends : call.heads with
    | true =>
      obtain ⟨e, thrown⟩ := Call.again sends sent
      refine ⟨res, ?_, sent, .refl _⟩
      rw [applyCalls, thrown, List.any_cons, sends]
      exact ⟨rfl, rfl⟩
    | false =>
      cases call with
      | stream ops =>
        obtain ⟨res', done, still, grown⟩ := stream_open sent ops
        obtain ⟨res'', rest, last, more⟩ := ih still
        refine ⟨res'', ?_, last, grown.trans more⟩
        rw [applyCalls, Call.apply, done, List.any_cons, sends]
        exact rest
      | header => contradiction
      | ok => contradiction
      | error => contradiction

theorem script_sent (sent : res.headerSent = true) (calls : List Call) (exn : Option Exn) :
    ∃ res', EndsWith (calls.any Call.heads || exn.isSome) res'
        ((⟨calls, exn⟩ : Script).apply res) ∧ Grows 0 res.sbuf.nc res'.sbuf.nc := by
  obtain ⟨res', ends, _, grown⟩ := applyCalls_sent sent calls
  refine ⟨res', ?_, grown⟩
  cases again : calls.any Call.heads with
  | true =>
    rw [again] at ends
    exact ends.thrown_bind
  | false =>
    rw [again] at ends
    refine ends.bind ?_
    cases exn <;> exact ⟨rfl, rfl⟩

/-- On a new response a script may send one head, and an exception costs another. -/
theorem script_heads (fresh : res.headerSent = false) (script : Script) :
    ∃ (thrown : Bool) (res' : Response) (n : Nat), EndsWith thrown res' (script.apply res) ∧
      Grows n res.sbuf.nc res'.sbuf.nc ∧ (n + thrown.toNat ≤ 1 ↔ script.SendsOnce) := by
  obtain ⟨calls, exn⟩ := script
  cases calls with
  | nil =>
    refine ⟨exn.isSome, res, 0, ?_, .refl _, ?_⟩
    · cases exn <;> exact ⟨rfl, rfl⟩
    · have one := exn.isSome.toNat_le
      simp only [Script.SendsOnce, iff_true]
      omega
  | cons call calls =>
    cases sends : call.heads with
    | true =>
      obtain ⟨opened, done, sent, head⟩ := Call.first sends fresh
      obtain ⟨res', ends, grown⟩ := script_sent sent calls exn
      refine ⟨calls.any Call.heads || exn.isSome, res', 1, ?_, head.trans grown, ?_⟩
      · rw [Script.apply, applyCalls, done]
        exact ends
      · have one_more : ∀ thrown : Bool, 1 + thrown.toNat ≤ 1 ↔ thrown = false := by decide
        rw [one_more]
        simp [Script.SendsOnce, sends]
    | false =>
      cases call with
      | stream ops =>
        refine ⟨true, res, 0, ?_, .refl _, ?_⟩
        · rw [Script.apply, applyCalls, Call.apply, Response.stream, fresh]
          exact ⟨rfl, rfl⟩
        · simp [Script.SendsOnce, Call.heads]
      | header => contradiction
      | ok => contradiction
      | error => contradiction

end Calls

section Handler

variable {σ : Type}

theorem answerError_grows (nc : Connection) (code : Int) (msg : Bytes) :
    ∃ nc', answerError nc code msg = .done nc' ∧ Grows 1 nc nc' := by
  have fresh : (Response.create nc).headerSent = false := rfl
  obtain ⟨res, done, _, grown⟩ := reply_first fresh "error" code msg
  refine ⟨res.destroy, ?_, grown.trans (destroy_grows res)⟩
  unfold answerError Response.error
  rw [done]
  rfl

theorem resume_grows (res : Response) (nc : Connection) :
    Grows 0 nc (res.resume nc).destroy := destroy_grows (res.resume nc)

/-- What becomes of a connection when a handler makes the calls of the script on it. -/
def Script.respond (script : Script) (nc : Connection) : Imperative.Outcome Exn Connection :=
  match script.apply (.create nc) with
  | .done res => .done res.destroy
  | .thrown _ res =>
    (answerError res.sbuf.nc 500 (str "Internal server error")).map fun nc =>
      (res.resume nc).destroy
  | .running => .running

theorem eventHandler_respond {requestMap : List (RequestMapEntry σ)} {hm : HttpMessage}
    {descr : RequestMapEntry σ} {sm : List Bytes} {st st' : σ} {script : Script}
    (nc : Connection) (found : suitable hm requestMap = some (descr, sm))
    (follows : Follows descr.handler ⟨hm.uri, hm.body, sm⟩ st script st') :
    eventHandler requestMap st nc (.httpRequest hm) =
      (script.respond nc).map fun nc => (st', nc) := by
  simp only [eventHandler, found, follows nc, Script.respond]
  cases script.apply (.create nc) with
  | done res => rfl
  | thrown e res =>
    simp only [Imperative.Outcome.thrown_map]
    cases answerError res.sbuf.nc 500 (str "Internal server error") <;> rfl
  | running => rfl

theorem Script.respond_heads (script : Script) (nc : Connection) :
    ∃ sent, script.respond nc = .done (nc ++ sent) ∧ (heads sent ≤ 1 ↔ script.SendsOnce) := by
  have fresh : (Response.create nc).headerSent = false := rfl
  obtain ⟨thrown, res, n, ends, grown, law⟩ := script_heads fresh script
  unfold Script.respond
  cases applied : script.apply (.create nc) with
  | done res' =>
    rw [applied] at ends
    obtain ⟨rfl, rfl⟩ := ends
    obtain ⟨sent, grew, count⟩ := grown.trans (destroy_grows res')
    refine ⟨sent, congrArg _ grew, ?_⟩
    rw [count]
    exact law
  | thrown e res' =>
    rw [applied] at ends
    obtain ⟨rfl, rfl⟩ := ends
    obtain ⟨nc', answered, head⟩ :=
      answerError_grows res'.sbuf.nc 500 (str "Internal server error")
    obtain ⟨sent, grew, count⟩ := grown.trans (head.trans (resume_grows res' nc'))
    refine ⟨sent, ?_, ?_⟩
    · simp only [answered, Imperative.Outcome.done_map]
      exact congrArg _ grew
    · rw [count]
      exact law
  | running =>
    rw [applied] at ends
    exact ends.elim

theorem script_one_head {requestMap : List (RequestMapEntry σ)} {hm : HttpMessage}
    {descr : RequestMapEntry σ} {sm : List Bytes} {st st' : σ} {script : Script}
    (nc : Connection) (found : suitable hm requestMap = some (descr, sm))
    (follows : Follows descr.handler ⟨hm.uri, hm.body, sm⟩ st script st') :
    ∃ sent, eventHandler requestMap st nc (.httpRequest hm) = .done (st', nc ++ sent) ∧
      (heads sent ≤ 1 ↔ script.SendsOnce) := by
  obtain ⟨sent, responds, law⟩ := script.respond_heads nc
  refine ⟨sent, ?_, law⟩
  rw [eventHandler_respond nc found follows, responds]
  rfl

end Handler

section Advance

variable {c : Codec} {streams : Streams c} {req : Request} {s : Stream c} {media : Media}
  {l : Stream.Advance c} (floatText : Rat → Bytes)

/-- The head of the answer is sent before `advance` starts. -/
def advanceHead : Call := .header 200 [(str "Content-Type", str "audio/webm")]

theorem advance_returns (live : streams (req.matcher.getD 1 []) = some s)
    (returns : s.advance media 240000 = .done l) :
    Follows (handleStreamAdvance floatText media) req streams
      ⟨[advanceHead, .stream [], .stream (Stream.segmentOps floatText l.metadata l.osBufData)], none⟩
      (Function.update streams (req.matcher.getD 1 []) (some l.stream)) := by
  intro nc
  have fresh : (Response.create nc).headerSent = false := rfl
  obtain ⟨res, head, sent, _⟩ :=
    header_first fresh 200 [(str "Content-Type", str "audio/webm")]
  obtain ⟨res', opened, _⟩ := stream_open sent []
  simp only [handleStreamAdvance, live, head, opened, returns, Script.apply, applyCalls, Call.apply,
    advanceHead, Imperative.Outcome.done_bind]
  cases res'.stream (Stream.segmentOps floatText l.metadata l.osBufData) <;> rfl

theorem advance_throws {e : Exn} (live : streams (req.matcher.getD 1 []) = some s)
    (throws : s.advance media 240000 = .thrown e l) :
    Follows (handleStreamAdvance floatText media) req streams
      ⟨[advanceHead, .stream []], some e⟩
      (Function.update streams (req.matcher.getD 1 []) (some l.stream)) := by
  intro nc
  have fresh : (Response.create nc).headerSent = false := rfl
  obtain ⟨res, head, sent, _⟩ :=
    header_first fresh 200 [(str "Content-Type", str "audio/webm")]
  obtain ⟨res', opened, _⟩ := stream_open sent []
  simp only [handleStreamAdvance, live, head, opened, throws, Script.apply, applyCalls, Call.apply,
    advanceHead, Imperative.Outcome.done_bind, Imperative.Outcome.thrown_map]

end Advance

/-- Heads sent for a request that finds a handler. A handler that makes any calls has at most
one head sent exactly if it sends none itself, or sends one and comes to its end without an
exception. For `handle_stream_advance` on a stream that is there: exactly if `advance` does
not throw. -/
theorem one_head_iff (c : Codec) (floatText : Rat → Bytes) :
    (∀ (σ : Type) (requestMap : List (RequestMapEntry σ)) (st st' : σ) (nc : Connection)
        (hm : HttpMessage) (descr : RequestMapEntry σ) (sm : List Bytes) (script : Script),
      suitable hm requestMap = some (descr, sm) →
      Follows descr.handler ⟨hm.uri, hm.body, sm⟩ st script st' →
      ∃ sent, eventHandler requestMap st nc (.httpRequest hm) = .done (st', nc ++ sent) ∧
        (heads sent ≤ 1 ↔ script.SendsOnce)) ∧
    (∀ (requestMap : List (RequestMapEntry (Streams c))) (streams : Streams c) (nc : Connection)
        (hm : HttpMessage) (descr : RequestMapEntry (Streams c)) (sm : List Bytes) (media : Media)
        (bitrate : Nat) (ops : List Stream.Op) (s : Stream c) (replies : List Stream.Reply),
      suitable hm requestMap = some (descr, sm) →
      descr.handler = handleStreamAdvance floatText media →
      streams (sm.getD 1 []) = some s →
      Stream.run (.create c bitrate) ops = some (s, replies) →
      ∃ streams' sent,
        eventHandler requestMap streams nc (.httpRequest hm) = .done (streams', nc ++ sent) ∧
        (heads sent ≤ 1 ↔ ∀ e l, s.advance media 240000 ≠ .thrown e l)) := by
  refine ⟨fun σ requestMap st st' nc hm descr sm script found follows =>
    script_one_head nc found follows, ?_⟩
  intro requestMap streams nc hm descr sm media bitrate ops s replies found handler live reached
  have ready : s.Ready := Stream.run_ready reached
  have ends := Stream.advance_acts media 240000 ready
  cases advanced : s.advance media 240000 with
  | done l =>
    have follows : Follows descr.handler ⟨hm.uri, hm.body, sm⟩ streams _ _ :=
      handler ▸ advance_returns floatText live advanced
    obtain ⟨sent, handled, law⟩ := script_one_head nc found follows
    exact ⟨_, sent, handled, by simp [law, Script.SendsOnce, Call.heads]⟩
  | thrown e l =>
    have follows : Follows descr.handler ⟨hm.uri, hm.body, sm⟩ streams _ _ :=
      handler ▸ advance_throws floatText live advanced
    obtain ⟨sent, handled, law⟩ := script_one_head nc found follows
    exact ⟨_, sent, handled, by simp [law, Script.SendsOnce, Call.heads, advanceHead]⟩
  | running =>
    rw [advanced] at ends
    exact ends.elim

def askA : HttpMessage where
  method := str "POST"
  uri := str "/stream/A/advance"
  body := []

def advanceEntry (media : Media) : RequestMapEntry (Streams Codec.plain) where
  method := str "POST"
  regex uri := if uri = str "/stream/A/advance" then some [uri, str "A"] else none
  handler := handleStreamAdvance (fun _ => []) media

def streamA : Stream Codec.plain := (Stream.create Codec.plain 196000).append (str "side a")

def onlyA : Streams Codec.plain := fun id => if id = str "A" then some streamA else none

/-- The file can be played. The number of its track is `A1`, which is no number. -/
def sideA : Media where
  decoder _ _ := .ok (.finite (List.replicate 8 1))
  metadata _ := .error ⟨"stold"⟩

def sideB : Media := { sideA with metadata := fun _ => .ok .unknown }

/-- The head of the answer, and then the head of the error. -/
theorem failed_advance_sends_two_heads :
    ∃ streams' sent, eventHandler [advanceEntry sideA] onlyA [] (.httpRequest askA) =
        .done (streams', [] ++ sent) ∧ heads sent = 2 :=
  ⟨_, _, rfl, by decide⟩

theorem one_head_iff_side_a_or_b :
    (∃ streams' sent, eventHandler [advanceEntry sideA] onlyA [] (.httpRequest askA) =
        .done (streams', [] ++ sent) ∧ ¬ heads sent ≤ 1) ∧
    ∃ streams' sent, eventHandler [advanceEntry sideB] onlyA [] (.httpRequest askA) =
        .done (streams', [] ++ sent) ∧ heads sent ≤ 1 := by
  obtain ⟨_, law⟩ := one_head_iff Codec.plain fun _ => []
  have reached : Stream.run (.create Codec.plain 196000) [.append (str "side a") 0] =
      some (streamA, [.appended]) := rfl
  have throws : ∃ e l, streamA.advance sideA 240000 = .thrown e l := ⟨_, _, rfl⟩
  have returns : (match streamA.advance sideB 240000 with
      | .done _ => true
      | .thrown _ _ | .running => false) = true := by decide +kernel
  constructor
  · obtain ⟨streams', sent, handled, iff⟩ := law [advanceEntry sideA] onlyA [] askA
      (advanceEntry sideA) [askA.uri, str "A"] sideA 196000 _ streamA _ rfl rfl rfl reached
    obtain ⟨e, l, thrown⟩ := throws
    exact ⟨streams', sent, handled, fun one => iff.mp one e l thrown⟩
  · obtain ⟨streams', sent, handled, iff⟩ := law [advanceEntry sideB] onlyA [] askA
      (advanceEntry sideB) [askA.uri, str "A"] sideB 196000 _ streamA _ rfl rfl rfl reached
    refine ⟨streams', sent, handled, iff.mpr ?_⟩
    intro e l thrown
    rw [thrown] at returns
    exact Bool.false_ne_true returns

end HttpAudioServer

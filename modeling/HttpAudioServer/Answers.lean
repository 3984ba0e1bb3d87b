import HttpAudioServer.FreshIds

/-! The answers that carry a status: the replies `ok` and `error`, and the error that the event
handler sends when a handler throws before it has sent anything. -/
namespace HttpAudioServer

def replyText (status : String) (msg : Bytes) : Bytes :=
  (Json.ofFields [(str "status", .string (str status)), (str "msg", .string msg)]).dumpPretty
    fun _ => []

theorem replyText_eq (status : String) (msg : Bytes) :
    replyText status msg = str "\x7b\n    \"msg\": \"" ++ (Json.escapeString msg ++
      (str "\",\n    \"status\": \"" ++ Json.escapeString (str status) ++ str "\"\n\x7d")) := by
  have sorted : Json.ofFields [(str "status", .string (str status)), (str "msg", .string msg)] =
      .object [(str "msg", .string msg), (str "status", .string (str status))] := rfl
  rw [replyText, sorted]
  simp only [Json.dumpPretty, Json.dumpAt, Json.dumpFields, if_true]
  have keys : Json.escapeString (str "msg") = str "msg" ∧
      Json.escapeString (str "status") = str "status" := by decide
  rw [keys.1, keys.2]
  simp only [List.append_assoc]
  rfl

section Sent

def jsonHeaders : Headers := [(str "Content-type", str "application/json")]

/-- The calls of a reply: a head, and then the text on a line of its own. -/
def replyCalls (status : String) (code : Int) (msg : Bytes) : Script where
  calls := [.header code jsonHeaders, .stream (.write (replyText status msg) :: endl)]

theorem Script.sent_congr {script other : Script}
    (same : ∀ res, script.apply res = other.apply res) : script.sent = other.sent := by
  simp only [Script.sent, Script.respond, same]

theorem ok_sent (code : Int) (msg : Bytes) :
    (⟨[.ok code msg], none⟩ : Script).sent = (replyCalls "ok" code msg).sent := by
  refine Script.sent_congr fun res => ?_
  rw [Script.apply_single, replyCalls, apply_pair]
  rfl

theorem error_sent (code : Int) (msg : Bytes) :
    (⟨[.error code msg], none⟩ : Script).sent = (replyCalls "error" code msg).sent := by
  refine Script.sent_congr fun res => ?_
  rw [Script.apply_single, replyCalls, apply_pair]
  rfl

/-- A handler that throws before it has sent anything: its own response sends nothing. -/
theorem throws_sent (e : Exn) :
    (⟨[], some e⟩ : Script).sent =
      (⟨[.error 500 (str "Internal server error")], none⟩ : Script).sent := by
  have error := respond_error [] 500 (str "Internal server error")
  have answered : (⟨[.error 500 (str "Internal server error")], none⟩ : Script).respond [] =
      .done (⟨[.error 500 (str "Internal server error")], none⟩ : Script).sent :=
    Script.respond_eq _ []
  rw [answered] at error
  have responds : (⟨[], some e⟩ : Script).respond [] =
      (answerError [] 500 (str "Internal server error")).map fun nc =>
        ((Response.create []).resume nc).destroy := rfl
  rw [Script.sent, responds, ← error]
  rfl

theorem reply_sent (status' : String) (code : Int) (msg : Bytes) :
    status (replyCalls status' code msg).sent = some code ∧
      heads (replyCalls status' code msg).sent = 1 ∧
      body (replyCalls status' code msg).sent = replyText status' msg ++ [10] := by
  obtain ⟨chunks, sent, written⟩ :=
    sent_stream code jsonHeaders (.write (replyText status' msg) :: endl)
  have line : (parts [] (.write (replyText status' msg) :: endl)).flatten =
      replyText status' msg ++ [10] := by
    simp [parts, endl]
  rw [replyCalls, sent, status_head, heads_head, heads_chunks, body_head, body_chunks, written, line]
  exact ⟨rfl, rfl, rfl⟩

theorem status_append {sent : List Sent} {code : Int} (answers : status sent = some code)
    (more : List Sent) : status (sent ++ more) = some code := by
  induction sent with
  | nil => contradiction
  | cons call sent ih =>
    cases call with
    | head other extraHeaders => exact answers
    | chunk buf => exact ih answers

theorem header_status (code : Int) (headers : Headers) (calls : List Call) (exn : Option Exn) :
    status (⟨.header code headers :: calls, exn⟩ : Script).sent = some code := by
  let opened : Response :=
    { sbuf := { ChunkedHTTPResponseBuf.create [] with
        nc := mgSendHead [] code (extraHeaders headers) }
      headerSent := true }
  have sent_head : opened.headerSent = true := rfl
  have head : status opened.sbuf.nc = some code := rfl
  have applied : (⟨.header code headers :: calls, exn⟩ : Script).apply (.create []) =
      (⟨calls, exn⟩ : Script).apply opened := rfl
  obtain ⟨res, ends, grown⟩ := script_sent sent_head calls exn
  have keeps : ∀ {n : Nat} {nc : Connection}, Grows n res.sbuf.nc nc → status nc = some code := by
    rintro n nc grown'
    obtain ⟨more, rfl, _⟩ := grown.trans grown'
    exact status_append head more
  unfold Script.sent Script.respond
  rw [applied]
  cases outcome : (⟨calls, exn⟩ : Script).apply opened with
  | done res' =>
    rw [outcome] at ends
    obtain ⟨_, rfl⟩ := ends
    exact keeps (destroy_grows res')
  | thrown e res' =>
    rw [outcome] at ends
    obtain ⟨_, rfl⟩ := ends
    obtain ⟨nc, answered, error⟩ := answerError_grows res'.sbuf.nc 500 (str "Internal server error")
    simp only [answered, Imperative.Outcome.done_map]
    exact keeps (error.trans (resume_grows res' nc))
  | running =>
    rw [outcome] at ends
    exact ends.elim

end Sent

end HttpAudioServer

import HttpAudioServer.Heads

/-! What a response puts on a connection does not depend on what has been put there before, so
that several requests on one connection get the answers that they would get on their own. -/
namespace HttpAudioServer

namespace ChunkedHTTPResponseBuf

/-- The same buffer on a connection that has been used before. -/
def after (earlier : Connection) (b : ChunkedHTTPResponseBuf) : ChunkedHTTPResponseBuf :=
  { b with nc := earlier ++ b.nc }

variable (earlier : Connection) (b : ChunkedHTTPResponseBuf)

theorem sync_after : (b.after earlier).sync = b.sync.after earlier := by
  simp [sync, after, pending, mgSendHttpChunk]

theorem fill_after (s : Bytes) : (b.after earlier).fill s = (b.fill s).after earlier := rfl

theorem overflow_after (ch : UInt8) :
    (b.after earlier).overflow ch = (b.overflow ch).after earlier := by
  simp [overflow, after, mgSendHttpChunk]

theorem sputc_after (ch : UInt8) : (b.after earlier).sputc ch = (b.sputc ch).after earlier := by
  by_cases room : b.pptr < 4096
  · rw [sputc, sputc, if_pos room]
    exact if_pos room
  · rw [sputc, sputc, if_neg room, ← overflow_after]
    exact if_neg room

def Put.after (l : Put) : Put := { l with sbuf := l.sbuf.after earlier }

theorem putRound_after (l : Put) :
    putRound (l.after earlier) = (putRound l).after earlier := by
  have same : (l.after earlier).left.drop (4096 - (l.after earlier).sbuf.pptr) =
      l.left.drop (4096 - l.sbuf.pptr) := rfl
  unfold putRound
  rw [same]
  cases l.left.drop (4096 - l.sbuf.pptr) with
  | nil => rfl
  | cons ch left => simp only [Put.after, fill_after, overflow_after]

theorem xsputn_after (s : Bytes) :
    (b.after earlier).xsputn s = (b.xsputn s).map (after earlier) := by
  let rounds (l : Put) : Imperative.Outcome Exn Put :=
    Imperative.whileLoop (fun l => !l.left.isEmpty) (fun l => .done (putRound l)) s.length l
  have loop : rounds (Put.after earlier ⟨b, s⟩) = (rounds ⟨b, s⟩).map (Put.after earlier) :=
    Imperative.whileLoop_map (fun _ => rfl)
      (fun l => congrArg Imperative.Outcome.done (putRound_after earlier l)) s.length ⟨b, s⟩
  refine (congrArg (Imperative.Outcome.map Put.sbuf) loop).trans ?_
  rw [xsputn]
  apply Imperative.Outcome.map_comm
  exact fun _ => rfl

end ChunkedHTTPResponseBuf

variable (earlier : Connection)

theorem applyAll_after (b : ChunkedHTTPResponseBuf) (ops : List StreamOp) :
    StreamOp.applyAll (b.after earlier) ops =
      (StreamOp.applyAll b ops).map (ChunkedHTTPResponseBuf.after earlier) := by
  induction ops generalizing b with
  | nil => rfl
  | cons op ops ih =>
    have first : op.apply (b.after earlier) =
        (op.apply b).map (ChunkedHTTPResponseBuf.after earlier) := by
      cases op with
      | write s => exact b.xsputn_after earlier s
      | put ch => exact congrArg _ (b.sputc_after earlier ch)
      | flush => exact congrArg _ (b.sync_after earlier)
    rw [StreamOp.applyAll, first]
    exact Imperative.Outcome.map_bind_comm ih

namespace Response

def after (res : Response) : Response := { res with sbuf := res.sbuf.after earlier }

variable (res : Response)

theorem create_after (nc : Connection) : create (earlier ++ nc) = (create nc).after earlier := rfl

theorem header_after (code : Int) (headers : Headers) :
    (res.after earlier).header code headers = (res.header code headers).map (after earlier) := by
  unfold header
  cases sent : res.headerSent with
  | true => simp [after, sent]
  | false => simp [after, sent, ChunkedHTTPResponseBuf.after, mgSendHead]

theorem stream_after (ops : List StreamOp) :
    (res.after earlier).stream ops = (res.stream ops).map (after earlier) := by
  unfold stream
  cases sent : res.headerSent with
  | true =>
    simp only [after, sent, applyAll_after, if_true]
    cases StreamOp.applyAll res.sbuf ops <;> rfl
  | false => simp [after, sent]

theorem reply_after (status : String) (code : Int) (msg : Bytes) :
    reply status (res.after earlier) code msg = (reply status res code msg).map (after earlier) := by
  unfold reply
  rw [header_after]
  exact Imperative.Outcome.map_bind_comm fun res => res.stream_after earlier _

theorem destroy_after : (res.after earlier).destroy = earlier ++ res.destroy := by
  unfold destroy
  cases sent : res.headerSent with
  | true =>
    simp only [after, sent, ChunkedHTTPResponseBuf.sync_after, if_true]
    simp [ChunkedHTTPResponseBuf.after, mgSendHttpChunk]
  | false => simp [after, sent, ChunkedHTTPResponseBuf.after]

end Response

theorem Call.apply_after (call : Call) (res : Response) :
    call.apply (res.after earlier) = (call.apply res).map (Response.after earlier) := by
  cases call with
  | header code headers => exact res.header_after earlier code headers
  | stream ops => exact res.stream_after earlier ops
  | ok code msg => exact res.reply_after earlier "ok" code msg
  | error code msg => exact res.reply_after earlier "error" code msg

theorem applyCalls_after (res : Response) (calls : List Call) :
    applyCalls (res.after earlier) calls = (applyCalls res calls).map (Response.after earlier) := by
  induction calls generalizing res with
  | nil => rfl
  | cons call calls ih =>
    rw [applyCalls, Call.apply_after]
    exact Imperative.Outcome.map_bind_comm ih

theorem answerError_after (nc : Connection) (code : Int) (msg : Bytes) :
    answerError (earlier ++ nc) code msg = (answerError nc code msg).map (earlier ++ ·) := by
  unfold answerError Response.error
  rw [Response.create_after, Response.reply_after]
  cases Response.reply "error" (.create nc) code msg with
  | done res => exact congrArg _ (res.destroy_after earlier)
  | thrown e res => exact congrArg _ (res.destroy_after earlier)
  | running => rfl

namespace Script

theorem apply_after (script : Script) (res : Response) :
    script.apply (res.after earlier) = (script.apply res).map (Response.after earlier) := by
  unfold apply
  rw [applyCalls_after]
  refine Imperative.Outcome.map_bind_comm fun res => ?_
  cases script.exn <;> rfl

theorem respond_after (script : Script) (nc : Connection) :
    script.respond (earlier ++ nc) = (script.respond nc).map (earlier ++ ·) := by
  unfold respond
  rw [Response.create_after, apply_after]
  cases script.apply (.create nc) with
  | done res => exact congrArg _ (res.destroy_after earlier)
  | thrown e res =>
    have error := answerError_after earlier res.sbuf.nc 500 (str "Internal server error")
    simp only [Imperative.Outcome.thrown_map]
    rw [show (res.after earlier).sbuf.nc = earlier ++ res.sbuf.nc from rfl, error]
    cases answerError res.sbuf.nc 500 (str "Internal server error") with
    | done nc => exact congrArg _ ((res.resume nc).destroy_after earlier)
    | thrown e nc => exact congrArg _ ((res.resume nc).destroy_after earlier)
    | running => rfl
  | running => rfl

def sent (script : Script) : List Sent :=
  match script.respond [] with
  | .done nc => nc
  | .thrown _ _ | .running => []

theorem respond_eq (script : Script) (nc : Connection) :
    script.respond nc = .done (nc ++ script.sent) := by
  obtain ⟨sent, responds, _⟩ := script.respond_heads []
  have same : script.sent = sent := by
    rw [Script.sent, responds]
    rfl
  have moved := script.respond_after nc []
  rw [List.append_nil, responds] at moved
  rw [moved, same]
  rfl

end Script

end HttpAudioServer

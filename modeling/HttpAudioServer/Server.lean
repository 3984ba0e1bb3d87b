import HttpAudioServer.Response

/-! The server: requests are looked up in a map and answered by a handler. What the handlers
share is a state of any type, and of a regex only its matches are known. -/
namespace HttpAudioServer

/-- `matcher` is what the groups of the regex have matched, the whole match first. -/
structure Request where
  uri : Bytes
  body : Bytes
  matcher : List Bytes
deriving DecidableEq, Repr

/-- A handler may change the shared state before it throws. -/
abbrev RequestHandler (σ : Type) :=
  Request → σ × Response → Imperative.Outcome Exn (σ × Response)

structure RequestMapEntry (σ : Type) where
  method : Bytes
  regex : Bytes → Option (List Bytes)
  handler : RequestHandler σ

structure HttpMessage where
  method : Bytes
  uri : Bytes
  body : Bytes
deriving DecidableEq, Repr

inductive Event where
  | httpRequest (hm : HttpMessage)
  | other (ev : Int)
deriving DecidableEq, Repr

section Server

variable {σ : Type}

/-- The entry that handles a request, with its matches: the first of the map that fits. -/
def suitable (hm : HttpMessage) : List (RequestMapEntry σ) → Option (RequestMapEntry σ × List Bytes)
  | [] => none
  | descr :: requestMap =>
    if descr.method = hm.method then
      match descr.regex hm.uri with
      | some sm => some (descr, sm)
      | none => suitable hm requestMap
    else suitable hm requestMap

/-- `Response(nc).error(…)`: a response of its own, gone with the statement. -/
def answerError (nc : Connection) (code : Int) (msg : Bytes) : Imperative.Outcome Exn Connection :=
  ((Response.create nc).error code msg).map Response.destroy

/-- The same response, after another one has used the connection. -/
def Response.resume (res : Response) (nc : Connection) : Response :=
  { res with sbuf := { res.sbuf with nc := nc } }

def eventHandler (requestMap : List (RequestMapEntry σ)) (st : σ) (nc : Connection) :
    Event → Imperative.Outcome Exn (σ × Connection)
  -- Only handle HTTP requests
  | .other _ => .done (st, nc)
  | .httpRequest hm =>
    match suitable hm requestMap with
    | some (descr, sm) =>
      match descr.handler ⟨hm.uri, hm.body, sm⟩ (st, .create nc) with
      | .done (st, res) => .done (st, res.destroy)
      | .thrown _ (st, res) =>
        -- The response of the handler is still there, and is destroyed last
        (answerError res.sbuf.nc 500 (str "Internal server error")).map fun nc =>
          (st, (res.resume nc).destroy)
      | .running => .running
    | none =>
      (answerError nc 404 (str "Requested resource \"" ++ hm.uri ++
        str "\" not found for method " ++ hm.method)).map fun nc => (st, nc)

end Server

end HttpAudioServer

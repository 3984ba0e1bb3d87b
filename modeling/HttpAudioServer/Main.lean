import HttpAudioServer.Pipe
import HttpAudioServer.Server

/-! The handlers of the main program and the map of its requests. The handlers share the
streams, each under its id. -/
namespace HttpAudioServer

variable {c : Codec}

abbrev Streams (c : Codec) := Bytes → Option (Stream c)

/-- `emplace` keeps what is there. Its result is not looked at. -/
def Streams.emplace (streams : Streams c) (streamId : Bytes) (stream : Stream c) : Streams c :=
  match streams streamId with
  | some _ => streams
  | none => Function.update streams streamId (some stream)

namespace Json

/-- Only an object has members: in any other value nothing is found. -/
def find (key : Bytes) : Json → Option Json
  | .object fields => fields.lookup key
  | _ => none

def typeName : Json → String
  | .null => "null"
  | .object _ => "object"
  | .array _ => "array"
  | .string _ => "string"
  | .boolean _ => "boolean"
  | .integer _ | .float _ => "number"

/-- `get<std::string>()`. -/
def getString : Json → Except Exn Bytes
  | .string s => .ok s
  | j => .error ⟨"type must be string, but is " ++ j.typeName⟩

end Json

namespace Stream

/-- What `advance` does to its output stream, piece by piece. -/
def segmentOps (floatText : Rat → Bytes) (metadata : List Record) (data : Bytes) : List StreamOp :=
  [.write (str "meta"), .write (Memory.leBytes (smeta floatText metadata).length),
    .write (smeta floatText metadata), .write (str "data"), .write (Memory.leBytes data.length),
    .write data]

end Stream

/-- What the response does with the output of `generic_pipe`. It never turns bad. -/
def pipeOps : Ostream (List StreamOp) where
  good _ := true
  write s ops := ops ++ [.write s]
  flush ops := ops ++ [.flush]

/-- `page` is what is in the file `index.html`, if it can be opened. -/
def handleIndex (page : Option Bytes) : RequestHandler (Streams c) := fun _ (streams, res) =>
  match genericPipe pipeOps page [] with
  | some ops =>
    ((res.header 200 [(str "Content-Type", str "text/html; charset=utf-8")]).bind fun res =>
      res.stream ops).map fun res => (streams, res)
  | none => .running

/-- `drawn` is what `random_alphanum_string` returns. -/
def handleStreamCreate (drawn : Bytes) : RequestHandler (Streams c) := fun _ (streams, res) =>
  let streamId := drawn
  let streams := streams.emplace streamId (.create c 196000)
  ((res.header 200 [(str "Content-Type", str "text/plain")]).bind fun res =>
    res.stream (.write streamId :: endl)).map fun res => (streams, res)

def streamNotFound (streamId : Bytes) : Bytes :=
  str "Stream id \"" ++ streamId ++ str "\" not found"

/-- The answer is written before the file is appended. -/
def handleStreamAppend (parse : Bytes → Except Exn Json) : RequestHandler (Streams c) :=
    fun req (streams, res) =>
  let streamId := req.matcher.getD 1 []
  match streams streamId with
  | some stream =>
    match parse req.body with
    | .error e => .thrown e (streams, res)
    | .ok resource =>
      match resource.find (str "filename") with
      | none => (res.error 400 (str "Invalid query")).map fun res => (streams, res)
      | some fn =>
        match fn.getString with
        | .error e => .thrown e (streams, res)
        | .ok filename =>
          ((res.ok 200 (str "Appended file " ++ filename)).map fun res => (streams, res)).bind
            fun (streams, res) =>
              .done (Function.update streams streamId (some (stream.append filename)), res)
  | none => (res.error 404 (streamNotFound streamId)).map fun res => (streams, res)

/-- The stream is asked for five seconds. Whatever it has become stays under its id. -/
def handleStreamAdvance (floatText : Rat → Bytes) (media : Media) :
    RequestHandler (Streams c) := fun req (streams, res) =>
  let streamId := req.matcher.getD 1 []
  match streams streamId with
  | some stream =>
    let opened := (res.header 200 [(str "Content-Type", str "audio/webm")]).bind fun res =>
      res.stream []
    match opened with
    | .done res =>
      match stream.advance media 240000 with
      | .done l =>
        (res.stream (Stream.segmentOps floatText l.metadata l.osBufData)).map fun res =>
          (Function.update streams streamId (some l.stream), res)
      | .thrown e l => .thrown e (Function.update streams streamId (some l.stream), res)
      | .running => .running
    | .thrown e res => .thrown e (streams, res)
    | .running => .running
  | none =>
    (res.error 404 (str "Stream id \"" ++ streamId ++ str "\" not found")).map fun res =>
      (streams, res)

def handleStreamDestroy : RequestHandler (Streams c) := fun req (streams, res) =>
  let streamId := req.matcher.getD 1 []
  match streams streamId with
  | some _ =>
    ((res.ok 200 (str "Stream successfully erased")).map fun res => (streams, res)).bind
      fun (streams, res) => .done (Function.update streams streamId none, res)
  | none => (res.error 404 (streamNotFound streamId)).map fun res => (streams, res)

/-- `[A-Za-z0-9]` -/
def isAlphanum (ch : UInt8) : Bool :=
  (65 ≤ ch && ch ≤ 90) || (97 ≤ ch && ch ≤ 122) || (48 ≤ ch && ch ≤ 57)

/-- `^/(index.html)?$`, where the dot is any character that ends no line. -/
def indexRegex (uri : Bytes) : Option (List Bytes) :=
  if uri = str "/" then some [uri, []]
  else
    let any := uri.getD 6 0
    if uri = str "/index" ++ [any] ++ str "html" ∧ any ≠ 10 ∧ any ≠ 13 then some [uri, uri.drop 1]
    else none

/-- `^/stream/create$` -/
def createRegex (uri : Bytes) : Option (List Bytes) :=
  if uri = str "/stream/create" then some [uri] else none

/-- `^/stream/([A-Za-z0-9]+)/action$`. No slash is in the class, so that the group can only be
the longest run of its characters. -/
def streamRegex (action uri : Bytes) : Option (List Bytes) :=
  let streamId := (uri.drop 8).takeWhile isAlphanum
  if streamId ≠ [] ∧ uri = str "/stream/" ++ streamId ++ str "/" ++ action then
    some [uri, streamId]
  else none

/-- The ids that a request can name. -/
def IsStreamId (streamId : Bytes) : Prop := streamId ≠ [] ∧ ∀ ch ∈ streamId, isAlphanum ch = true

structure StreamId where
  text : Bytes
  isStreamId : IsStreamId text

/-- What the outside gives while a request is handled. `drawn` may be any string of letters and
digits. -/
structure Outside where
  page : Option Bytes
  drawn : StreamId
  media : Media

def requestMap (parse : Bytes → Except Exn Json) (floatText : Rat → Bytes) (outside : Outside) :
    List (RequestMapEntry (Streams c)) := [
  ⟨str "GET", indexRegex, handleIndex outside.page⟩,
  ⟨str "POST", createRegex, handleStreamCreate outside.drawn.text⟩,
  ⟨str "POST", streamRegex (str "append"), handleStreamAppend parse⟩,
  ⟨str "POST", streamRegex (str "advance"), handleStreamAdvance floatText outside.media⟩,
  ⟨str "POST", streamRegex (str "destroy"), handleStreamDestroy⟩]

end HttpAudioServer

import HttpAudioServer.Numerals
import HttpAudioServer.Server
import Mathlib.Data.List.DropRight

/-! What mongoose does with the bytes that come in on a connection. A pointer into a buffer is
the bytes from there on, up to the end of the head while that is parsed. -/
namespace HttpAudioServer

structure MgStr where
  p : Bytes := []
  len : Nat := 0
deriving DecidableEq, Repr

def MgStr.text (s : MgStr) : Bytes := s.p.take s.len

/-- `strchr(delims, ch)` is not null. It finds also the character that ends the string. -/
def isDelim (delims : Bytes) (ch : UInt8) : Bool := delims.contains ch || ch = 0

/-- The token up to a delimiter, and what comes after the delimiters. -/
def mgSkip (delims s : Bytes) : MgStr × Bytes :=
  (⟨s, (s.takeWhile fun ch => !isDelim delims ch).length⟩,
    (s.dropWhile fun ch => !isDelim delims ch).dropWhile (isDelim delims))

/-- The end of a string is a character 0. -/
def mgNcasecmp : Bytes → Bytes → Nat → Int
  | _, _, 0 => 0
  | s1, s2, len + 1 =>
    let diff : Int := (tolower (s1.headD 0)).toNat - (tolower (s2.headD 0)).toNat
    if diff = 0 ∧ s1.headD 0 ≠ 0 then mgNcasecmp s1.tail s2.tail len else diff

def mgVcasecmp (str1 : MgStr) (str2 : Bytes) : Int :=
  let r := mgNcasecmp str1.p str2 (min str1.len str2.length)
  if r = 0 then str1.len - str2.length else r

/-- `size_t` -/
def toSize (i : Int) : Nat := (i % 18446744073709551616).toNat

/-- `(size_t) ~0` -/
def sizeMax : Nat := toSize (-1)

/-- `strtoll(s, NULL, 10)` -/
def to64 (s : Bytes) : Int :=
  let (negative, s) := scanSign (s.dropWhile isSpace)
  let n : Int := digitsValue 10 (scanDigits decimalDigit s)
  if negative then max (-n) (-9223372036854775808) else min n 9223372036854775807

/-- `struct http_message`, without the pointers to the message and to its body. -/
structure MgHttpMessage where
  method : MgStr := {}
  uri : MgStr := {}
  proto : MgStr := {}
  respCode : Int := 0
  respStatusMsg : MgStr := {}
  queryString : MgStr := {}
  headers : List (MgStr × MgStr) := []
  bodyLen : Nat := sizeMax
  messageLen : Nat := sizeMax
deriving DecidableEq, Repr

/-- In the "C" locale. -/
def isPrint (ch : UInt8) : Bool := 32 ≤ ch && ch ≤ 126

def isBad (ch : UInt8) : Bool := !isPrint ch && ch ≠ 13 && ch ≠ 10 && ch < 128

def requestLenFrom (bufLen : Int) (i : Nat) : Bytes → Int
  | [] => 0
  | ch :: rest =>
    if bufLen ≤ i then 0
    else if isBad ch then -1
    else if ch = 10 ∧ (i + 1 : Int) < bufLen ∧ rest.head? = some 10 then i + 2
    else if ch = 10 ∧ (i + 2 : Int) < bufLen ∧ rest.take 2 = [13, 10] then i + 3
    else requestLenFrom bufLen (i + 1) rest

/-- The length of the head: -1 if it is malformed, and 0 if it is not yet there. -/
def mgHttpGetRequestLen (s : Bytes) (bufLen : Int) : Int := requestLenFrom bufLen 0 s

/-- Trim trailing spaces in header value. -/
def MgStr.trim (v : MgStr) : MgStr := { v with len := (v.text.rdropWhile (· = 32)).length }

def MgHttpMessage.addHeader (len : Nat) (req : MgHttpMessage) (k v : MgStr) : MgHttpMessage :=
  let req := { req with headers := req.headers ++ [(k, v)] }
  if mgNcasecmp k.p (str "Content-Length") 14 = 0 then
    { req with bodyLen := toSize (to64 v.p), messageLen := toSize (len + toSize (to64 v.p)) }
  else req

def mgHttpParseHeaders (len : Nat) : Nat → Bytes → MgHttpMessage → MgHttpMessage
  | 0, _, req => req
  | n + 1, s, req =>
    let (k, s) := mgSkip (str ": ") s
    let (v, s) := mgSkip (str "\r\n") s
    let v := v.trim
    if k.len = 0 ∨ v.len = 0 then req
    else mgHttpParseHeaders len n s (req.addHeader len k v)

/-- If URI contains '?' character, initialize query_string. -/
def MgHttpMessage.splitQuery (hm : MgHttpMessage) : MgHttpMessage :=
  let path := hm.uri.text.takeWhile (· ≠ 63)
  if path.length < hm.uri.len then
    { hm with
      queryString := ⟨hm.uri.p.drop (path.length + 1), hm.uri.len - (path.length + 1)⟩
      uri := { hm.uri with len := path.length } }
  else hm

/-- Method, URI, proto. A pointer further on has fewer bytes after it. -/
def parseRequestLine (s : Bytes) : Option (MgHttpMessage × Bytes) :=
  let (method, s) := mgSkip (str " ") s
  let (uri, s) := mgSkip (str " ") s
  let (proto, s) := mgSkip (str "\r\n") s
  if method.p.length ≤ uri.p.length ∨ uri.p.length ≤ proto.p.length then none
  else some (MgHttpMessage.splitQuery { method := method, uri := uri, proto := proto }, s)

def parseStatusLine (s : Bytes) : Option (MgHttpMessage × Bytes) :=
  let (proto, s) := mgSkip (str " ") s
  if s.length < 4 ∨ s[3]? ≠ some 32 then none
  else
    let respCode := wrapInt (to64 s)
    if respCode < 100 ∨ 600 ≤ respCode then none
    else
      let (respStatusMsg, s) := mgSkip (str "\r\n") (s.drop 4)
      some ({ proto := proto, respCode := respCode, respStatusMsg := respStatusMsg }, s)

inductive Parsed where
  | malformed
  | unfinished
  | head (len : Nat) (hm : MgHttpMessage)
deriving DecidableEq, Repr

/-- Methods other than PUT and POST have no body, unless they say how long it is. -/
def MgHttpMessage.withoutBody (isReq : Bool) (len : Nat) (hm : MgHttpMessage) : MgHttpMessage :=
  if hm.bodyLen = sizeMax ∧ isReq = true ∧ mgVcasecmp hm.method (str "PUT") ≠ 0 ∧
      mgVcasecmp hm.method (str "POST") ≠ 0 then
    { hm with bodyLen := 0, messageLen := len }
  else hm

/-- All but one of the 40 places for headers are used. -/
def mgParseHttp (isReq : Bool) (s : Bytes) (n : Int) : Parsed :=
  let len := mgHttpGetRequestLen s n
  if len < 0 then .malformed
  else if len = 0 then .unfinished
  else
    let len := len.toNat
    -- Request is fully buffered. Skip leading whitespaces.
    let s := (s.take len).dropWhile isSpace
    match if isReq then parseRequestLine s else parseStatusLine s with
    | none => .malformed
    | some (hm, s) => .head len ((mgHttpParseHeaders len 39 s hm).withoutBody isReq len)

def mgGetHttpHeader (hm : MgHttpMessage) (name : Bytes) : Option MgStr :=
  (hm.headers.find? fun h => h.1.len = name.length ∧ mgNcasecmp h.1.p name name.length = 0).map
    Prod.snd

/-- `chunkBodyLen` is how many bytes of a chunked body are reassembled. The flags are those
that a handler of the protocol sets. -/
structure MgConnection where
  recvMbuf : Bytes := []
  chunkBodyLen : Nat := 0
  closeImmediately : Bool := false
  isWebsocket : Bool := false
deriving DecidableEq, Repr

/-- What `mg_http_parse_chunk` finds: the length of the chunk, the bytes from its data on, and how
many of them are data. -/
structure ParsedChunk where
  n : Nat
  chunkData : Bytes
  chunkLen : Nat
deriving DecidableEq, Repr

/-- 0 is returned for a buffer that is not encoded or incomplete. -/
def mgHttpParseChunk (buf : Bytes) : Option ParsedChunk :=
  -- Scan chunk length. That should be a hexadecimal number.
  let digits := buf.takeWhile fun ch => (hexDigit ch).isSome
  let n := digits.foldl (fun n ch => toSize (n * 16 + (hexDigit ch).getD 0)) 0
  -- Skip new line
  if digits = [] ∨ (buf.drop digits.length).take 2 ≠ [13, 10] then none
  else
    -- Skip data
    let i := toSize (digits.length + 2 + n)
    -- Skip new line
    if i = 0 ∨ (buf.drop i).take 2 ≠ [13, 10] then none
    else some ⟨i + 2, buf.drop (digits.length + 2), n⟩

/-- The variables of the loop of `mg_handle_chunked`. -/
structure Chunking where
  buf : Bytes
  i : Nat
  bodyLen : Nat
  zeroChunkReceived : Bool := false
deriving DecidableEq, Repr

/-- Collapse chunk data to the rest of HTTP body. The program may be lost in memory that is not
of the buffer. -/
def chunkRound (l : Chunking) : Imperative.Outcome Unit Chunking :=
  match mgHttpParseChunk (l.buf.drop l.i) with
  | none => .done l
  | some ⟨n, data, dataLen⟩ =>
    if data.length < dataLen then .thrown () l
    else .done {
      buf := Memory.overwrite l.buf l.bodyLen (data.take dataLen)
      i := l.i + n
      bodyLen := l.bodyLen + dataLen
      zeroChunkReceived := dataLen = 0 }

def chunkLoop (bodyLen : Nat) (buf : Bytes) : Imperative.Outcome Unit Chunking :=
  Imperative.whileLoop
    (fun l => !l.zeroChunkReceived && (mgHttpParseChunk (l.buf.drop l.i)).isSome)
    chunkRound buf.length ⟨buf, bodyLen, bodyLen, false⟩

/-- The buffer is behind the head, whose length is `reqLen`. There is no result if an assertion
fails or the program is lost. The user sets no flag. -/
def mgHandleChunked (nc : MgConnection) (hm : MgHttpMessage) (reqLen : Nat) :
    Option (MgConnection × MgHttpMessage) :=
  let buf := nc.recvMbuf.drop reqLen
  if buf.length < nc.chunkBodyLen then none
  else
    match chunkLoop nc.chunkBodyLen buf with
    | .done l =>
      if l.bodyLen < l.i then
        -- Shift unparsed content to the parsed body
        let left := l.buf.drop l.i
        some ({ nc with
            recvMbuf := nc.recvMbuf.take reqLen ++ l.buf.take l.bodyLen ++ left
            chunkBodyLen := l.bodyLen },
          { hm with
            bodyLen := l.bodyLen
            messageLen := if l.zeroChunkReceived then l.bodyLen + left.length else hm.messageLen })
      else some (nc, hm)
    | .thrown _ _ | .running => none

/-- The message of an event, with the bytes from the pointer to its body on. -/
structure Trigger where
  hm : MgHttpMessage
  body : Bytes
deriving DecidableEq, Repr

def MgHttpMessage.isChunked (hm : MgHttpMessage) : Bool :=
  (mgGetHttpHeader hm (str "Transfer-Encoding")).any fun s => mgVcasecmp s (str "chunked") = 0

/-- `mg_http_handler` for `MG_EV_RECV`. A connection with a listener receives requests, and one
without receives replies. The length of the buffer is converted to an `int`. -/
def mgHttpHandler (isReq : Bool) (nc : MgConnection) : Option (MgConnection × Option Trigger) :=
  match mgParseHttp isReq nc.recvMbuf (wrapInt nc.recvMbuf.length) with
  | .malformed => some ({ nc with closeImmediately := true }, none)
  | .unfinished =>
    if 8192 ≤ nc.recvMbuf.length then some ({ nc with closeImmediately := true }, none)
    else some (nc, none)
  | .head reqLen hm =>
    (if hm.isChunked then mgHandleChunked nc hm reqLen else some (nc, hm)).map fun (nc, hm) =>
      let key := if isReq then str "Sec-WebSocket-Key" else str "Sec-WebSocket-Accept"
      if (mgGetHttpHeader hm key).isSome then ({ nc with isWebsocket := true }, none)
      else if hm.messageLen ≤ nc.recvMbuf.length then
        -- Whole HTTP message is fully buffered, call event handler
        ({ nc with recvMbuf := nc.recvMbuf.drop hm.messageLen },
          some ⟨hm, nc.recvMbuf.drop reqLen⟩)
      else (nc, none)

/-- Bytes that come in on a connection that is to be closed are discarded, and those on a
websocket are not HTTP. -/
def mgRecv (isReq : Bool) (nc : MgConnection) (buf : Bytes) :
    Option (MgConnection × Option Trigger) :=
  if nc.closeImmediately || nc.isWebsocket then some (nc, none)
  else mgHttpHandler isReq { nc with recvMbuf := nc.recvMbuf ++ buf }

/-- `mg_http_handler` for `MG_EV_CLOSE`: what there is of a message is sent before the end. -/
def mgClose (isReq : Bool) (nc : MgConnection) : Option Trigger :=
  if nc.isWebsocket then none
  else
    match mgParseHttp isReq nc.recvMbuf (wrapInt nc.recvMbuf.length) with
    | .malformed | .unfinished => none
    | .head reqLen hm =>
      let body := nc.recvMbuf.drop reqLen
      some ⟨{ hm with messageLen := nc.recvMbuf.length, bodyLen := body.length }, body⟩

/-- What the event handler makes of a message. The body may be said to be longer than all that
is there. -/
def Trigger.message (t : Trigger) : Option HttpMessage :=
  if t.hm.bodyLen ≤ t.body.length then
    some ⟨t.hm.method.text, t.hm.uri.text, t.body.take t.hm.bodyLen⟩
  else none

end HttpAudioServer

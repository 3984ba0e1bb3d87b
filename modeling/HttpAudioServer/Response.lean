import HttpAudioServer.Json
import HttpAudioServer.Stream

/-! Responses on a connection. What mongoose has put into the send buffer of a connection is
kept call by call, and a response writes its body in chunks through a small buffer. -/
namespace HttpAudioServer

/-- The calls of mongoose that a response makes. The content length of its head is negative. -/
inductive Sent where
  | head (statusCode : Int) (extraHeaders : Bytes)
  | chunk (buf : Bytes)
deriving DecidableEq, Repr

abbrev Connection := List Sent

def statusMessage (statusCode : Int) : String :=
  if statusCode = 206 then "Partial Content"
  else if statusCode = 301 then "Moved"
  else if statusCode = 302 then "Found"
  else if statusCode = 401 then "Unauthorized"
  else if statusCode = 403 then "Forbidden"
  else if statusCode = 404 then "Not Found"
  else if statusCode = 416 then "Requested range not satisfiable"
  else if statusCode = 418 then "I'm a teapot"
  else if statusCode = 500 then "Internal Server Error"
  else "OK"

/-- What `%lX` prints. -/
def upperHex (n : Nat) : Bytes := (Nat.toDigits 16 n).map fun digit => digit.toUpper.toUInt8

/-- The bytes that a call appends to the send buffer. The extra headers are a C string. -/
def Sent.bytes : Sent → Bytes
  | .head statusCode extraHeaders =>
    let extraHeaders := extraHeaders.takeWhile (· ≠ 0)
    str s!"HTTP/1.1 {statusCode} {statusMessage statusCode}\r\nServer: Mongoose/6.5\r\n" ++
      (if extraHeaders = [] then [] else extraHeaders ++ str "\r\n") ++
      str "Transfer-Encoding: chunked\r\n" ++ str "\r\n"
  | .chunk buf => upperHex buf.length ++ str "\r\n" ++ buf ++ str "\r\n"

def mgSendHead (nc : Connection) (statusCode : Int) (extraHeaders : Bytes) : Connection :=
  nc ++ [.head statusCode extraHeaders]

def mgSendHttpChunk (nc : Connection) (buf : Bytes) : Connection := nc ++ [.chunk buf]

/-- The put area is `buf` without its last byte, which is there for `overflow`. -/
structure ChunkedHTTPResponseBuf where
  nc : Connection
  buf : Bytes
  pptr : Nat
  size : buf.length = 4097
  inside : pptr ≤ 4096

namespace ChunkedHTTPResponseBuf

def create (nc : Connection) : ChunkedHTTPResponseBuf where
  nc := nc
  buf := List.replicate 4097 0
  pptr := 0
  size := List.length_replicate
  inside := Nat.zero_le _

/-- The bytes between `pbase` and `pptr`. -/
def pending (b : ChunkedHTTPResponseBuf) : Bytes := b.buf.take b.pptr

def sync (b : ChunkedHTTPResponseBuf) : ChunkedHTTPResponseBuf where
  nc := mgSendHttpChunk b.nc b.pending
  buf := b.buf
  pptr := 0
  size := b.size
  inside := Nat.zero_le _

theorem length_stored (b : ChunkedHTTPResponseBuf) {xs : Bytes}
    (fits : b.pptr + xs.length ≤ 4097) : (Memory.overwrite b.buf b.pptr xs).length = 4097 := by
  rw [Memory.length_overwrite (by rw [b.size]; exact fits), b.size]

/-- The character goes to `pptr`, which may be the last byte, and `sync` sends it along. -/
def overflow (b : ChunkedHTTPResponseBuf) (ch : UInt8) : ChunkedHTTPResponseBuf where
  nc := mgSendHttpChunk b.nc ((Memory.overwrite b.buf b.pptr [ch]).take (b.pptr + 1))
  buf := Memory.overwrite b.buf b.pptr [ch]
  pptr := 0
  size := b.length_stored (Nat.succ_le_succ b.inside)
  inside := Nat.zero_le _

/-- `std::streambuf` copies as much as there is room for in the put area. -/
def fill (b : ChunkedHTTPResponseBuf) (s : Bytes) : ChunkedHTTPResponseBuf where
  nc := b.nc
  buf := Memory.overwrite b.buf b.pptr (s.take (4096 - b.pptr))
  pptr := b.pptr + (s.take (4096 - b.pptr)).length
  size := b.length_stored (by have := b.inside; rw [List.length_take]; omega)
  inside := by have := b.inside; rw [List.length_take]; omega

def sputc (b : ChunkedHTTPResponseBuf) (ch : UInt8) : ChunkedHTTPResponseBuf :=
  if b.pptr < 4096 then b.fill [ch] else b.overflow ch

/-- The variables of the loop of `xsputn`: the buffer, and what is left to write. -/
structure Put where
  sbuf : ChunkedHTTPResponseBuf
  left : Bytes

/-- Fill the put area, and call `overflow` for the next character if there is one. -/
def putRound (l : Put) : Put :=
  match l.left.drop (4096 - l.sbuf.pptr) with
  | [] => { sbuf := l.sbuf.fill l.left, left := [] }
  | ch :: left => { sbuf := (l.sbuf.fill l.left).overflow ch, left := left }

def xsputn (b : ChunkedHTTPResponseBuf) (s : Bytes) :
    Imperative.Outcome Exn ChunkedHTTPResponseBuf :=
  (Imperative.whileLoop (fun l => !l.left.isEmpty) (fun l => .done (putRound l)) s.length
    (⟨b, s⟩ : Put)).map Put.sbuf

variable {b b' b'' : ChunkedHTTPResponseBuf}

@[simp] theorem sync_nc (b : ChunkedHTTPResponseBuf) :
    b.sync.nc = b.nc ++ [.chunk b.pending] := rfl

@[simp] theorem sync_pending (b : ChunkedHTTPResponseBuf) : b.sync.pending = [] := rfl

theorem length_pending (b : ChunkedHTTPResponseBuf) : b.pending.length = b.pptr := by
  have size := b.size
  have inside := b.inside
  rw [pending, List.length_take]
  omega

theorem overflow_nc (b : ChunkedHTTPResponseBuf) (ch : UInt8) :
    (b.overflow ch).nc = b.nc ++ [.chunk (b.pending ++ [ch])] := by
  have fits : b.pptr + [ch].length ≤ b.buf.length := by
    rw [b.size]
    exact Nat.succ_le_succ b.inside
  have stored := Memory.take_overwrite fits
  exact congrArg (fun sent => b.nc ++ [Sent.chunk sent]) stored

@[simp] theorem overflow_pending (b : ChunkedHTTPResponseBuf) (ch : UInt8) :
    (b.overflow ch).pending = [] := rfl

theorem fill_pending (b : ChunkedHTTPResponseBuf) (s : Bytes) :
    (b.fill s).pending = b.pending ++ s.take (4096 - b.pptr) := by
  refine Memory.take_overwrite ?_
  have inside := b.inside
  rw [b.size, List.length_take]
  omega

/-- `s` has been written: whole chunks have gone out, and the rest waits for a flush. -/
structure Wrote (b : ChunkedHTTPResponseBuf) (s : Bytes) (b' : ChunkedHTTPResponseBuf) : Prop where
  sent : b'.nc = b.nc ++ (Blocks.blocks 4097 (b.pending ++ s)).map Sent.chunk
  left : b'.pending = Blocks.rest 4097 (b.pending ++ s)

theorem Wrote.trans {s t : Bytes} (first : Wrote b s b') (second : Wrote b' t b'') :
    Wrote b (s ++ t) b'' := by
  constructor
  · rw [second.sent, first.sent, first.left, ← List.append_assoc b.pending,
      Blocks.blocks_append (by decide) (b.pending ++ s) t, List.map_append, List.append_assoc]
  · rw [second.left, first.left, ← List.append_assoc b.pending,
      Blocks.rest_append (by decide) (b.pending ++ s) t]

theorem pending_short (b : ChunkedHTTPResponseBuf) : b.pending.length < 4097 := by
  rw [length_pending]
  exact Nat.lt_succ_of_le b.inside

theorem wrote_nil (b : ChunkedHTTPResponseBuf) : Wrote b [] b := by
  constructor
  · rw [List.append_nil, Blocks.blocks_of_lt b.pending_short]
    exact (List.append_nil _).symm
  · rw [List.append_nil, Blocks.rest_of_lt b.pending_short]

theorem wrote_fill {s : Bytes} (room : s.length ≤ 4096 - b.pptr) : Wrote b s (b.fill s) := by
  have inside := b.inside
  have short : (b.pending ++ s).length < 4097 := by
    rw [List.length_append, length_pending]
    omega
  constructor
  · rw [Blocks.blocks_of_lt short]
    exact (List.append_nil _).symm
  · rw [Blocks.rest_of_lt short, fill_pending, List.take_of_length_le room]

theorem wrote_overflow (ch : UInt8) (full : b.pptr = 4096) : Wrote b [ch] (b.overflow ch) := by
  have whole : (b.pending ++ [ch]).length = 4097 := by
    rw [List.length_append, length_pending, full]
    rfl
  constructor
  · rw [overflow_nc, Blocks.blocks_single (by decide) whole]
    rfl
  · rw [overflow_pending, Blocks.rest_single (by decide) whole]

theorem sputc_wrote (b : ChunkedHTTPResponseBuf) (ch : UInt8) : Wrote b [ch] (b.sputc ch) := by
  have inside := b.inside
  unfold sputc
  split
  · exact wrote_fill (by rw [List.length_singleton]; omega)
  · exact wrote_overflow ch (by omega)

theorem putRound_wrote (l : Put) (more : l.left ≠ []) :
    ∃ put, l.left = put ++ (putRound l).left ∧ Wrote l.sbuf put (putRound l).sbuf ∧
      (putRound l).left.length < l.left.length := by
  unfold putRound
  split
  · rename_i nothing
    have room := List.drop_eq_nil_iff.mp nothing
    exact ⟨l.left, (List.append_nil _).symm, wrote_fill room, List.length_pos_iff.mpr more⟩
  · rename_i ch left rest
    have split := List.take_append_drop (4096 - l.sbuf.pptr) l.left
    rw [rest] at split
    have inside := l.sbuf.inside
    have taken : (l.left.take (4096 - l.sbuf.pptr)).length = 4096 - l.sbuf.pptr := by
      have longer := congrArg List.length rest
      rw [List.length_drop, List.length_cons] at longer
      rw [List.length_take]
      omega
    have same : l.sbuf.fill l.left = l.sbuf.fill (l.left.take (4096 - l.sbuf.pptr)) := by
      simp only [fill, List.take_take, Nat.min_self]
    have full : (l.sbuf.fill l.left).pptr = 4096 := by
      simp only [fill, taken]
      omega
    have filled := wrote_fill (Nat.le_of_eq taken)
    rw [← same] at filled
    refine ⟨l.left.take (4096 - l.sbuf.pptr) ++ [ch], ?_, filled.trans (wrote_overflow ch full), ?_⟩
    · simpa using split.symm
    · have count := congrArg List.length split
      rw [List.length_append, List.length_cons] at count
      change left.length < l.left.length
      omega

theorem xsputn_wrote (b : ChunkedHTTPResponseBuf) (s : Bytes) :
    ∃ b', b.xsputn s = .done b' ∧ Wrote b s b' := by
  let inv (l : Put) : Prop := ∃ put, s = put ++ l.left ∧ Wrote b put l.sbuf
  have loop : (Imperative.whileLoop (fun l => !l.left.isEmpty)
      (fun l => (.done (putRound l) : Imperative.Outcome Exn Put)) s.length ⟨b, s⟩).Ends
      (fun l => inv l ∧ (!l.left.isEmpty) = false) fun _ _ => False := by
    apply Imperative.whileLoop_ends inv (fun l => l.left.length)
    · exact fun l _ go => List.length_pos_iff.mpr (by simpa using go)
    · rintro l ⟨put, parts, wrote⟩ go
      obtain ⟨more, split, step, fewer⟩ := putRound_wrote l (by simpa using go)
      exact ⟨⟨put ++ more, by rw [List.append_assoc, ← split, parts], wrote.trans step⟩, fewer⟩
    · exact ⟨[], rfl, wrote_nil b⟩
    · exact Nat.le_refl _
  obtain ⟨l, ended, ⟨put, parts, wrote⟩, stop⟩ := loop.done
  have empty : l.left = [] := by simpa using stop
  rw [empty, List.append_nil] at parts
  subst parts
  exact ⟨l.sbuf, by rw [xsputn, ended]; rfl, wrote⟩

end ChunkedHTTPResponseBuf

/-- The extra headers of a head, in the order in which the map yields them. -/
abbrev Headers := List (Bytes × Bytes)

def extraHeaders (headers : Headers) : Bytes :=
  (str "\r\n").intercalate (headers.map fun header => header.1 ++ str ": " ++ header.2)

inductive StreamOp where
  | write (s : Bytes)
  | put (ch : UInt8)
  | flush
deriving DecidableEq, Repr

def endl : List StreamOp := [.put 10, .flush]

namespace StreamOp

def apply (b : ChunkedHTTPResponseBuf) : StreamOp → Imperative.Outcome Exn ChunkedHTTPResponseBuf
  | write s => b.xsputn s
  | put ch => .done (b.sputc ch)
  | flush => .done b.sync

def applyAll (b : ChunkedHTTPResponseBuf) :
    List StreamOp → Imperative.Outcome Exn ChunkedHTTPResponseBuf
  | [] => .done b
  | op :: ops => (op.apply b).bind fun b => applyAll b ops

end StreamOp

structure Response where
  sbuf : ChunkedHTTPResponseBuf
  headerSent : Bool := false

namespace Response

def create (nc : Connection) : Response where
  sbuf := .create nc

def header (res : Response) (code : Int) (headers : Headers := []) :
    Imperative.Outcome Exn Response :=
  -- Ensure the header is only sent once
  if res.headerSent then .thrown ⟨"HTTP header already sent!"⟩ res
  else .done {
    sbuf := { res.sbuf with nc := mgSendHead res.sbuf.nc code (extraHeaders headers) }
    headerSent := true }

/-- `stream`, and what is then done with it. -/
def stream (res : Response) (ops : List StreamOp) : Imperative.Outcome Exn Response :=
  if res.headerSent then (StreamOp.applyAll res.sbuf ops).map fun sbuf => { res with sbuf := sbuf }
  else .thrown ⟨"HTTP header must be sent before sending payload!"⟩ res

/-- The answers of `ok` and `error`. No number occurs in them whose text would matter. -/
def reply (status : String) (res : Response) (code : Int) (msg : Bytes) :
    Imperative.Outcome Exn Response :=
  let json := Json.ofFields [(str "status", .string (str status)), (str "msg", .string msg)]
  (res.header code [(str "Content-type", str "application/json")]).bind fun res =>
    res.stream (.write (json.dumpPretty fun _ => []) :: endl)

def ok : Response → Int → Bytes → Imperative.Outcome Exn Response := reply "ok"

def error : Response → Int → Bytes → Imperative.Outcome Exn Response := reply "error"

/-- The destructor, and what it leaves on the connection. -/
def destroy (res : Response) : Connection :=
  if res.headerSent then mgSendHttpChunk res.sbuf.sync.nc [] else res.sbuf.nc

end Response

end HttpAudioServer

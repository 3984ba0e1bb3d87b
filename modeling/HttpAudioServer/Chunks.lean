import HttpAudioServer.Response

/-! The chunks of a response. A flush sends what is pending, also if that is nothing, and an
empty chunk is what ends a body. -/
namespace HttpAudioServer

open Blocks

/-- The bytes written between two flushes. The destructor flushes after the last of them. -/
def parts (part : Bytes) : List StreamOp → List Bytes
  | [] => [part]
  | .write s :: ops => parts (part ++ s) ops
  | .put ch :: ops => parts (part ++ [ch]) ops
  | .flush :: ops => part :: parts [] ops

def chunked (part : Bytes) : List Bytes := blocks 4097 part ++ [rest 4097 part]

def EndsOnce (chunks : List Bytes) : Prop :=
  chunks.getLast? = some [] ∧ ∀ chunk ∈ chunks.dropLast, chunk ≠ []

instance (chunks : List Bytes) : Decidable (EndsOnce chunks) :=
  inferInstanceAs (Decidable (_ ∧ _))

/-- What `mg_send_http_chunk` writes for an empty chunk. -/
def marker : Bytes := str "0\r\n\r\n"

/-- What a client still finds on the connection when it has met the end of the body. -/
def afterMarker (sent : List Sent) : List Sent :=
  (sent.dropWhile fun call => call.bytes ≠ marker).tail

theorem endsOnce_append {body : List Bytes} :
    EndsOnce (body ++ [[]]) ↔ ∀ chunk ∈ body, chunk ≠ [] := by
  simp [EndsOnce]

theorem chunk_bytes_eq_marker {buf : Bytes} : (Sent.chunk buf).bytes = marker ↔ buf = [] := by
  constructor
  · intro same
    have digits : 0 < (upperHex buf.length).length := by
      rw [upperHex, List.length_map, List.length_pos_iff]
      exact Nat.toDigits_ne_nil
    have count := congrArg List.length same
    have marker_length : marker.length = 5 := rfl
    have crlf : (str "\r\n").length = 2 := rfl
    simp only [Sent.bytes, List.length_append, marker_length, crlf] at count
    rw [← List.length_eq_zero_iff]
    omega
  · rintro rfl
    rfl

theorem afterMarker_append {body : List Bytes} :
    afterMarker ((body ++ [[]]).map Sent.chunk) = [] ↔ ∀ chunk ∈ body, chunk ≠ [] := by
  induction body with
  | nil => simp [afterMarker, chunk_bytes_eq_marker]
  | cons chunk body ih =>
    by_cases empty : chunk = []
    · simp [afterMarker, chunk_bytes_eq_marker, empty]
    · rw [List.forall_mem_cons, ← ih]
      simp [afterMarker, chunk_bytes_eq_marker, empty]

theorem chunked_nonempty {part : Bytes} :
    (∀ chunk ∈ chunked part, chunk ≠ []) ↔ ¬ 4097 ∣ part.length := by
  have last : rest 4097 part = [] ↔ 4097 ∣ part.length := by
    rw [← List.length_eq_zero_iff, length_rest, Nat.dvd_iff_mod_eq_zero]
  rw [← last]
  constructor
  · exact fun every => every _ (List.mem_append_right _ List.mem_cons_self)
  · intro some_left chunk member
    rcases List.mem_append.mp member with whole | left
    · intro empty
      have length := length_of_mem_blocks whole
      rw [empty] at length
      contradiction
    · rwa [List.mem_singleton.mp left]

section Writes

variable {b b' : ChunkedHTTPResponseBuf}

/-- All chunks up to a flush at the end: those of each part, in order. The induction keeps
the state of the last flush, from which `part` has been written. -/
theorem applyAll_chunks {part : Bytes} (flushed : b.pending = [])
    (wrote : ChunkedHTTPResponseBuf.Wrote b part b') (ops : List StreamOp) :
    ∃ t, StreamOp.applyAll b' ops = .done t ∧
      t.sync.nc = b.nc ++ ((parts part ops).flatMap chunked).map Sent.chunk := by
  induction ops generalizing b b' part with
  | nil =>
    refine ⟨b', rfl, ?_⟩
    rw [ChunkedHTTPResponseBuf.sync_nc, wrote.sent, wrote.left, flushed]
    simp [parts, chunked]
  | cons op ops ih =>
    cases op with
    | write s =>
      obtain ⟨b'', written, more⟩ := b'.xsputn_wrote s
      obtain ⟨t, rest, sent⟩ := ih flushed (wrote.trans more)
      exact ⟨t, by rw [StreamOp.applyAll, StreamOp.apply, written]; exact rest, sent⟩
    | put ch => exact ih flushed (wrote.trans (b'.sputc_wrote ch))
    | flush =>
      obtain ⟨t, rest, sent⟩ := ih b'.sync_pending (ChunkedHTTPResponseBuf.wrote_nil _)
      refine ⟨t, rest, ?_⟩
      rw [sent, ChunkedHTTPResponseBuf.sync_nc, wrote.sent, wrote.left, flushed]
      simp [parts, chunked]

theorem stream_destroy {res : Response} (sent : res.headerSent = true)
    (flushed : res.sbuf.pending = []) (ops : List StreamOp) :
    ∃ res', res.stream ops = .done res' ∧
      res'.destroy =
        res.sbuf.nc ++ ((parts [] ops).flatMap chunked ++ [[]]).map Sent.chunk := by
  obtain ⟨t, done, chunks⟩ := applyAll_chunks flushed (ChunkedHTTPResponseBuf.wrote_nil _) ops
  refine ⟨{ res with sbuf := t }, ?_, ?_⟩
  · rw [Response.stream, if_pos sent, done]
    rfl
  · rw [Response.destroy, if_pos sent, chunks, mgSendHttpChunk, List.map_append, List.append_assoc]
    rfl

end Writes

def StreamOp.bytes : StreamOp → Bytes
  | .write s => s
  | .put ch => [ch]
  | .flush => []

namespace ChunkedHTTPResponseBuf

variable {b b' b'' : ChunkedHTTPResponseBuf}

/-- Between the two states `written` has been taken on, and `chunks` have gone out. -/
structure Carries (b : ChunkedHTTPResponseBuf) (written : Bytes) (chunks : List Bytes)
    (b' : ChunkedHTTPResponseBuf) : Prop where
  sent : b'.nc = b.nc ++ chunks.map Sent.chunk
  kept : chunks.flatten ++ b'.pending = b.pending ++ written
  short : ∀ chunk ∈ chunks, chunk.length ≤ 4097

theorem Carries.refl (b : ChunkedHTTPResponseBuf) : Carries b [] [] b where
  sent := (List.append_nil _).symm
  kept := (List.append_nil _).symm
  short := by simp

theorem Carries.trans {s t : Bytes} {chunks chunks' : List Bytes} (first : Carries b s chunks b')
    (second : Carries b' t chunks' b'') : Carries b (s ++ t) (chunks ++ chunks') b'' where
  sent := by rw [second.sent, first.sent, List.map_append, List.append_assoc]
  kept := by
    rw [List.flatten_append, List.append_assoc, second.kept, ← List.append_assoc, first.kept,
      List.append_assoc]
  short := List.forall_mem_append.mpr ⟨first.short, second.short⟩

theorem Wrote.carries {s : Bytes} (wrote : Wrote b s b') :
    Carries b s (blocks 4097 (b.pending ++ s)) b' where
  sent := wrote.sent
  kept := by rw [wrote.left, flatten_blocks_append_rest (by decide)]
  short _ member := Nat.le_of_eq (length_of_mem_blocks member)

theorem sync_carries (b : ChunkedHTTPResponseBuf) : Carries b [] [b.pending] b.sync where
  sent := rfl
  kept := by simp
  short := List.forall_mem_singleton.mpr (Nat.le_of_lt b.pending_short)

theorem apply_carries (b : ChunkedHTTPResponseBuf) (op : StreamOp) :
    ∃ b' chunks, op.apply b = .done b' ∧ Carries b op.bytes chunks b' := by
  cases op with
  | write s =>
    obtain ⟨b', done, wrote⟩ := b.xsputn_wrote s
    exact ⟨b', _, done, wrote.carries⟩
  | put ch => exact ⟨_, _, rfl, (b.sputc_wrote ch).carries⟩
  | flush => exact ⟨_, _, rfl, b.sync_carries⟩

theorem applyAll_carries (b : ChunkedHTTPResponseBuf) (ops : List StreamOp) :
    ∃ b' chunks, StreamOp.applyAll b ops = .done b' ∧
      Carries b (ops.flatMap StreamOp.bytes) chunks b' := by
  induction ops generalizing b with
  | nil => exact ⟨b, [], rfl, .refl b⟩
  | cons op ops ih =>
    obtain ⟨next, chunks, done, first⟩ := b.apply_carries op
    obtain ⟨b', chunks', rest, later⟩ := ih next
    refine ⟨b', chunks ++ chunks', ?_, first.trans later⟩
    rw [StreamOp.applyAll, done]
    exact rest

theorem applyAll_append (b : ChunkedHTTPResponseBuf) (ops ops' : List StreamOp) :
    StreamOp.applyAll b (ops ++ ops') =
      (StreamOp.applyAll b ops).bind fun b => StreamOp.applyAll b ops' := by
  induction ops generalizing b with
  | nil => rfl
  | cons op ops ih =>
    simp only [List.cons_append, StreamOp.applyAll]
    cases op.apply b with
    | done b' => exact ih b'
    | thrown e b' => rfl
    | running => rfl

theorem overflow_stores (b : ChunkedHTTPResponseBuf) (ch : UInt8) :
    b.pptr < b.buf.length ∧ (b.overflow ch).buf = b.buf.set b.pptr ch := by
  have inside : b.pptr < b.buf.length := by
    rw [b.size]
    exact Nat.lt_succ_of_le b.inside
  refine ⟨inside, ?_⟩
  rw [List.set_eq_take_append_cons_drop, if_pos inside]
  simp [overflow, Memory.overwrite]

/-- After any operations the payloads of the chunks and what is still pending are what has been
written, in order, and a flush leaves nothing pending. Every state in which `overflow` can be
called has its put pointer inside of the buffer. -/
theorem chunks_carry_body (nc : Connection) (ops : List StreamOp) :
    (∃ (b : ChunkedHTTPResponseBuf) (chunks : List Bytes),
      StreamOp.applyAll (create nc) ops = .done b ∧ b.nc = nc ++ chunks.map Sent.chunk ∧
      chunks.flatten ++ b.pending = ops.flatMap StreamOp.bytes ∧
      b.pending.length ≤ 4096 ∧ ∀ chunk ∈ chunks, chunk.length ≤ 4097) ∧
    (∃ b, StreamOp.applyAll (create nc) (ops ++ [.flush]) = .done b ∧ b.pending = []) ∧
    ∀ (b : ChunkedHTTPResponseBuf) (ch : UInt8), b.buf.length = 4097 ∧ b.pptr < b.buf.length ∧
      (b.overflow ch).buf = b.buf.set b.pptr ch := by
  obtain ⟨b, chunks, done, carries⟩ := (create nc).applyAll_carries ops
  refine ⟨⟨b, chunks, done, carries.sent, carries.kept, ?_, carries.short⟩, ⟨b.sync, ?_, rfl⟩,
    fun b ch => ⟨b.size, b.overflow_stores ch⟩⟩
  · rw [b.length_pending]
    exact b.inside
  · rw [applyAll_append, done]
    rfl

end ChunkedHTTPResponseBuf

namespace Response

/-- After the head, the chunks of a response end with its only empty chunk, and its body ends
with its first end marker, exactly if no flush finds the buffer empty: the number of bytes
written between two flushes, the destructor's included, is not a multiple of 4097. -/
theorem chunks_end_once_iff (nc : Connection) (code : Int) (headers : Headers)
    (ops : List StreamOp) :
    ∃ res chunks,
      ((Response.create nc).header code headers).bind (fun res => res.stream ops) = .done res ∧
      res.destroy = nc ++ .head code (extraHeaders headers) :: chunks.map .chunk ∧
      (EndsOnce chunks ↔ ∀ part ∈ parts [] ops, ¬ 4097 ∣ part.length) ∧
      (afterMarker (chunks.map .chunk) = [] ↔ ∀ part ∈ parts [] ops, ¬ 4097 ∣ part.length) := by
  have condition : (∀ chunk ∈ (parts [] ops).flatMap chunked, chunk ≠ []) ↔
      ∀ part ∈ parts [] ops, ¬ 4097 ∣ part.length := by
    simp only [← chunked_nonempty, List.mem_flatMap]
    exact ⟨fun every part inside chunk member => every chunk ⟨part, inside, member⟩,
      fun every chunk ⟨part, inside, member⟩ => every part inside chunk member⟩
  let opened : Response :=
    { sbuf := { ChunkedHTTPResponseBuf.create nc with
        nc := mgSendHead nc code (extraHeaders headers) }
      headerSent := true }
  have sent_head : opened.headerSent = true := rfl
  obtain ⟨res, done, sent⟩ := stream_destroy sent_head rfl ops
  refine ⟨res, _, done, ?_, endsOnce_append.trans condition, afterMarker_append.trans condition⟩
  rw [sent]
  simp [opened, mgSendHead]

/-- An answer that ends its line: the flush of the destructor finds nothing to send. -/
theorem endl_ends_body_early :
    ∃ res, ((Response.create []).header 200 [(str "Content-Type", str "text/plain")]).bind
        (fun res => res.stream (.write (str "a4S0") :: endl)) = .done res ∧
      res.destroy = [.head 200 (str "Content-Type: text/plain"), .chunk (str "a4S0\n"),
        .chunk [], .chunk []] ∧
      ¬ EndsOnce [str "a4S0\n", [], []] :=
  ⟨_, rfl, rfl, by decide⟩

end Response

end HttpAudioServer

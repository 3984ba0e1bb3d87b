import HttpAudioServer.Requests

/-! The chunks of a body, as they are written and as mongoose reads them: it moves their data
together in the buffer, read by read. -/
namespace HttpAudioServer

section Digits

theorem hexDigit_upper {d : Nat} (digit : d < 16) :
    hexDigit (Nat.digitChar d).toUpper.toUInt8 = some d := by
  have all : ∀ d < 16, hexDigit (Nat.digitChar d).toUpper.toUInt8 = some d := by decide
  exact all d digit

theorem toDigits_read {b : Nat} (base : 1 < b) {write : Char → UInt8} {digit : UInt8 → Option Nat}
    (reads : ∀ d < b, digit (write (Nat.digitChar d)) = some d) (n : Nat) :
    (∀ ch ∈ (Nat.toDigits b n).map write, (digit ch).isSome = true) ∧
      digitsValue b (((Nat.toDigits b n).map write).filterMap digit) = n := by
  induction n using Nat.strong_induction_on with
  | _ n ih =>
    by_cases one : n < b
    · rw [Nat.toDigits_of_lt_base one]
      simp [reads n one, digitsValue]
    · have positive : 0 < n := by omega
      obtain ⟨digits, value⟩ := ih (n / b) (Nat.div_lt_self positive base)
      have last := reads (n % b) (Nat.mod_lt n (Nat.zero_lt_of_lt base))
      rw [Nat.toDigits_of_base_le base (Nat.le_of_not_lt one), List.map_append]
      constructor
      · intro ch member
        rw [List.mem_append, List.map_singleton, List.mem_singleton] at member
        rcases member with earlier | rfl
        · exact digits ch earlier
        · rw [last]
          rfl
      · have appended (ds : List Nat) (d : Nat) :
            digitsValue b (ds ++ [d]) = digitsValue b ds * b + d := by
          simp [digitsValue]
        rw [List.filterMap_append, List.map_singleton, List.filterMap_cons_some last,
          List.filterMap_nil, appended, value]
        exact Nat.div_add_mod' n b

theorem upperHex_read (n : Nat) :
    (∀ ch ∈ upperHex n, (hexDigit ch).isSome = true) ∧
      digitsValue 16 ((upperHex n).filterMap hexDigit) = n :=
  toDigits_read (by decide) (fun _ => hexDigit_upper) n

theorem foldl_toSize {digits : Bytes} (all : ∀ ch ∈ digits, (hexDigit ch).isSome = true) :
    digits.foldl (fun n ch => toSize (n * 16 + (hexDigit ch).getD 0)) 0 =
      toSize (digitsValue 16 (digits.filterMap hexDigit)) := by
  have general : ∀ n : Nat,
      digits.foldl (fun n ch => toSize (n * 16 + (hexDigit ch).getD 0)) (toSize n) =
        toSize ((digits.filterMap hexDigit).foldl (fun n d => n * 16 + d) n : Nat) := by
    intro n
    induction digits generalizing n with
    | nil => rfl
    | cons ch digits ih =>
      obtain ⟨first, others⟩ := List.forall_mem_cons.mp all
      obtain ⟨d, digit⟩ := Option.isSome_iff_exists.mp first
      have wrapped : toSize (toSize n * 16 + d) = toSize (n * 16 + d : Nat) := by
        unfold toSize
        omega
      rw [List.foldl_cons, List.filterMap_cons_some digit, List.foldl_cons, digit, Option.getD_some,
        wrapped]
      exact ih others (n * 16 + d)
  exact general 0

end Digits

section Chunk

def sizeDigits (buf : Bytes) : Bytes := buf.takeWhile fun ch => (hexDigit ch).isSome

def chunkSize (buf : Bytes) : Nat := toSize (digitsValue 16 ((sizeDigits buf).filterMap hexDigit))

theorem sizeDigits_all (buf : Bytes) : ∀ ch ∈ sizeDigits buf, (hexDigit ch).isSome = true := by
  intro ch member
  exact List.mem_takeWhile_imp (p := fun ch => (hexDigit ch).isSome) member

theorem mgHttpParseChunk_eq_some {buf : Bytes} {c : ParsedChunk} :
    mgHttpParseChunk buf = some c ↔
      sizeDigits buf ≠ [] ∧ (buf.drop (sizeDigits buf).length).take 2 = [13, 10] ∧
      toSize ((sizeDigits buf).length + 2 + chunkSize buf) ≠ 0 ∧
      (buf.drop (toSize ((sizeDigits buf).length + 2 + chunkSize buf))).take 2 = [13, 10] ∧
      c = ⟨toSize ((sizeDigits buf).length + 2 + chunkSize buf) + 2,
        buf.drop ((sizeDigits buf).length + 2), chunkSize buf⟩ := by
  have unfolded : mgHttpParseChunk buf =
      if sizeDigits buf = [] ∨ (buf.drop (sizeDigits buf).length).take 2 ≠ [13, 10] then none
      else if toSize ((sizeDigits buf).length + 2 + chunkSize buf) = 0 ∨
          (buf.drop (toSize ((sizeDigits buf).length + 2 + chunkSize buf))).take 2 ≠ [13, 10] then none
      else some ⟨toSize ((sizeDigits buf).length + 2 + chunkSize buf) + 2,
        buf.drop ((sizeDigits buf).length + 2), chunkSize buf⟩ := by
    rw [chunkSize, ← foldl_toSize (sizeDigits_all buf)]
    rfl
  rw [unfolded]
  by_cases begun : sizeDigits buf = [] ∨ (buf.drop (sizeDigits buf).length).take 2 ≠ [13, 10]
  · rw [if_pos begun]
    constructor
    · intro nothing
      contradiction
    · rintro ⟨some_digits, newline, _⟩
      exact absurd begun (by simp [some_digits, newline])
  · rw [if_neg begun]
    obtain ⟨some_digits, newline⟩ := not_or.mp begun
    rw [not_not] at newline
    split
    case isTrue unfinished =>
      constructor
      · intro nothing
        contradiction
      · rintro ⟨_, _, nonzero, ended, _⟩
        exact absurd unfinished (by simp only [nonzero, ended, ne_eq, not_true, or_self, not_false_iff])
    case isFalse finished =>
      obtain ⟨nonzero, ended⟩ := not_or.mp finished
      rw [not_not] at ended
      constructor
      · intro same
        exact ⟨some_digits, newline, nonzero, ended, (Option.some.inj same).symm⟩
      · rintro ⟨_, _, _, _, rfl⟩
        rfl

theorem le_length_of_take {buf : Bytes} {i : Nat} (newline : (buf.drop i).take 2 = [13, 10]) :
    i + 2 ≤ buf.length := by
  have length := congrArg List.length newline
  rw [List.length_take, List.length_drop, List.length_cons, List.length_singleton] at length
  omega

theorem take_append_of_newline {buf : Bytes} {i : Nat} (newline : (buf.drop i).take 2 = [13, 10])
    (more : Bytes) : ((buf ++ more).drop i).take 2 = [13, 10] := by
  have inside := le_length_of_take newline
  rw [List.drop_append_of_le_length (by omega), List.take_append_of_le_length, newline]
  rw [List.length_drop]
  omega

theorem sizeDigits_append {buf : Bytes}
    (newline : (buf.drop (sizeDigits buf).length).take 2 = [13, 10]) (more : Bytes) :
    sizeDigits (buf ++ more) = sizeDigits buf := by
  have inside := le_length_of_take newline
  unfold sizeDigits at inside ⊢
  rw [List.takeWhile_append, if_neg (by omega)]

/-- A chunk is found only when all of it is there, and then it stays the same. -/
theorem mgHttpParseChunk_append {buf : Bytes} {c : ParsedChunk} (found : mgHttpParseChunk buf = some c)
    (more : Bytes) :
    c.n ≤ buf.length ∧
      mgHttpParseChunk (buf ++ more) = some ⟨c.n, c.chunkData ++ more, c.chunkLen⟩ := by
  obtain ⟨some_digits, newline, nonzero, ended, rfl⟩ := mgHttpParseChunk_eq_some.mp found
  have begun := le_length_of_take newline
  have digits := sizeDigits_append newline more
  have size : chunkSize (buf ++ more) = chunkSize buf := by
    rw [chunkSize, digits, chunkSize]
  refine ⟨le_length_of_take ended, mgHttpParseChunk_eq_some.mpr ?_⟩
  rw [digits, size]
  refine ⟨some_digits, take_append_of_newline newline more, nonzero,
    take_append_of_newline ended more, ?_⟩
  rw [List.drop_append_of_le_length begun]

/-- A chunk as a sender may write it: the size has digits in either case, maybe with zeros before
them. -/
structure Chunk where
  size : Bytes
  data : Bytes
  some_digits : size ≠ []
  digits : ∀ ch ∈ size, (hexDigit ch).isSome = true
  counted : digitsValue 16 (size.filterMap hexDigit) = data.length

namespace Chunk

def bytes (chunk : Chunk) : Bytes := chunk.size ++ crlf ++ chunk.data ++ crlf

def ofData (data : Bytes) : Chunk where
  size := upperHex data.length
  data := data
  some_digits := by
    rw [upperHex, ne_eq, List.map_eq_nil_iff]
    exact Nat.toDigits_ne_nil
  digits := (upperHex_read data.length).1
  counted := (upperHex_read data.length).2

theorem bytes_ofData (data : Bytes) : (ofData data).bytes = (Sent.chunk data).bytes := by
  have newline : str "\r\n" = crlf := by decide
  simp [ofData, bytes, Sent.bytes, newline]

theorem length_bytes (chunk : Chunk) :
    chunk.bytes.length = chunk.size.length + 2 + chunk.data.length + 2 := by
  simp only [bytes, List.length_append, show crlf.length = 2 from rfl]

theorem data_length (chunk : Chunk) : chunk.data.length + 5 ≤ chunk.bytes.length := by
  have digits := List.length_pos_iff.mpr chunk.some_digits
  rw [length_bytes]
  omega

end Chunk

theorem mgHttpParseChunk_chunk (chunk : Chunk) (rest : Bytes)
    (small : chunk.bytes.length < 18446744073709551616) :
    mgHttpParseChunk (chunk.bytes ++ rest) =
      some ⟨chunk.bytes.length, chunk.data ++ (crlf ++ rest), chunk.data.length⟩ := by
  have split : chunk.bytes ++ rest = chunk.size ++ (crlf ++ (chunk.data ++ (crlf ++ rest))) := by
    simp [Chunk.bytes]
  have scanned : sizeDigits (chunk.bytes ++ rest) = chunk.size := by
    rw [split, sizeDigits, List.takeWhile_append_of_pos chunk.digits]
    exact List.append_nil _
  have length := chunk.length_bytes
  have size : chunkSize (chunk.bytes ++ rest) = chunk.data.length := by
    rw [chunkSize, scanned, chunk.counted, toSize_natCast (by omega)]
  have place : toSize (chunk.size.length + 2 + chunk.data.length) =
      chunk.size.length + 2 + chunk.data.length := by
    unfold toSize
    omega
  rw [mgHttpParseChunk_eq_some, scanned, size, place, length]
  refine ⟨chunk.some_digits, ?_, by omega, ?_, ?_⟩
  · rw [split, List.drop_left]
    rfl
  · have behind : chunk.bytes ++ rest = (chunk.size ++ crlf ++ chunk.data) ++ (crlf ++ rest) := by
      rw [split]
      simp
    have count : (chunk.size ++ crlf ++ chunk.data).length =
        chunk.size.length + 2 + chunk.data.length := by
      simp [crlf]
      omega
    rw [behind, ← count, List.drop_left]
    rfl
  · have behind : chunk.bytes ++ rest =
        (chunk.size ++ crlf) ++ (chunk.data ++ (crlf ++ rest)) := by
      rw [split]
      simp
    have count : (chunk.size ++ crlf).length = chunk.size.length + 2 := by
      simp [crlf]
    rw [behind, ← count, List.drop_left]

/-- A chunk may have its data outside of the buffer. This is so exactly for one size, with which
the place after the data is the end of the line with the size. -/
theorem chunk_outside (buf : Bytes) (bounded : buf.length < 9223372036854775808) :
    (∃ c, mgHttpParseChunk buf = some c ∧ c.chunkData.length < c.chunkLen) ↔
      sizeDigits buf ≠ [] ∧ (buf.drop (sizeDigits buf).length).take 2 = [13, 10] ∧
      chunkSize buf = 18446744073709551614 := by
  constructor
  · rintro ⟨c, found, beyond⟩
    obtain ⟨some_digits, newline, nonzero, ended, rfl⟩ := mgHttpParseChunk_eq_some.mp found
    refine ⟨some_digits, newline, ?_⟩
    have begun := le_length_of_take newline
    have inside := le_length_of_take ended
    have small : chunkSize buf < 18446744073709551616 := by
      unfold chunkSize toSize
      omega
    simp only [List.length_drop] at beyond
    let i := toSize ((sizeDigits buf).length + 2 + chunkSize buf)
    have wrapped : i + 18446744073709551616 = (sizeDigits buf).length + 2 + chunkSize buf := by
      simp only [i, toSize] at inside ⊢
      omega
    have carriage : buf[i]? = some 13 := by
      have first := congrArg List.head? ended
      rwa [List.head?_take, if_neg (by decide), List.head?_drop] at first
    have not_digit : ¬ i < (sizeDigits buf).length := by
      intro before
      have digit := sizeDigits_all buf _ (List.getElem_mem before)
      have same : buf[i]? = some (sizeDigits buf)[i] := by
        exact List.prefix_iff_getElem?.mp (List.takeWhile_prefix _) i before
      rw [carriage] at same
      rw [← Option.some.inj same] at digit
      exact absurd digit (by decide)
    have not_feed : i ≠ (sizeDigits buf).length + 1 := by
      intro same
      have second := congrArg (fun s => s[1]?) newline
      rw [List.getElem?_take_of_lt (by decide), List.getElem?_drop, ← same, carriage] at second
      exact absurd second (by decide)
    omega
  · rintro ⟨some_digits, newline, size⟩
    have positive := List.length_pos_iff.mpr some_digits
    have begun := le_length_of_take newline
    have place : toSize ((sizeDigits buf).length + 2 + chunkSize buf) = (sizeDigits buf).length := by
      rw [size]
      unfold toSize
      omega
    refine ⟨_, mgHttpParseChunk_eq_some.mpr ⟨some_digits, newline, ?_, ?_, rfl⟩, ?_⟩
    · rw [place]
      omega
    · rw [place, newline]
    · simp only [size, List.length_drop]
      omega

theorem chunk_outside_size :
    ∃ c, mgHttpParseChunk (str "fffffffffffffffe\r\n") = some c ∧
      c.chunkData.length < c.chunkLen :=
  (chunk_outside (str "fffffffffffffffe\r\n") (by decide)).mpr (by decide)

end Chunk

def chunkBytes (chunks : List Chunk) : Bytes := chunks.flatMap Chunk.bytes

def chunkData (chunks : List Chunk) : Bytes := chunks.flatMap Chunk.data

section Collapse

/-- The data is in front of what has not been looked at. -/
structure Chunking.At (l : Chunking) (body rest : Bytes) : Prop where
  collapsed : l.buf.take l.bodyLen = body
  length : l.bodyLen = body.length
  remaining : l.buf.drop l.i = rest
  place : l.i + rest.length = l.buf.length
  behind : l.bodyLen ≤ l.i

theorem chunkRound_at {l : Chunking} {body rest : Bytes} {chunk : Chunk}
    (held : l.At body (chunk.bytes ++ rest)) (bounded : l.buf.length < 9223372036854775808) :
    ∃ t, chunkRound l = .done t ∧ t.At (body ++ chunk.data) rest ∧ t.buf.length = l.buf.length ∧
      t.zeroChunkReceived = decide (chunk.data = []) := by
  have place := held.place
  have behind := held.behind
  have longer := chunk.data_length
  rw [List.length_append] at place
  have found := mgHttpParseChunk_chunk chunk rest (by omega)
  rw [← held.remaining] at found
  have enough : ¬ (chunk.data ++ (crlf ++ rest)).length < chunk.data.length := by
    rw [List.length_append]
    omega
  have data : (chunk.data ++ (crlf ++ rest)).take chunk.data.length = chunk.data := List.take_left
  have fits : l.bodyLen + chunk.data.length ≤ l.buf.length := by omega
  have round : chunkRound l = .done {
      buf := Memory.overwrite l.buf l.bodyLen chunk.data
      i := l.i + chunk.bytes.length
      bodyLen := l.bodyLen + chunk.data.length
      zeroChunkReceived := chunk.data.length = 0 } := by
    simp only [chunkRound, found, if_neg enough, data]
  refine ⟨_, round, ?_, ?_, ?_⟩
  · constructor
    · rw [Memory.take_overwrite fits, held.collapsed]
    · rw [held.length, List.length_append]
    · simp only
      rw [Memory.drop_overwrite fits (by omega), ← List.drop_drop, held.remaining, List.drop_left]
    · simp only [Memory.length_overwrite fits]
      omega
    · simp only
      omega
  · exact Memory.length_overwrite fits
  · simp [List.length_eq_zero_iff]

/-- The loop stops behind the last chunk that is there, or behind an empty one. -/
theorem whileLoop_chunks {chunks : List Chunk} (nonempty : ∀ chunk ∈ chunks, chunk.data ≠ [])
    {tail : Bytes} {l : Chunking} {body : Bytes} (held : l.At body (chunkBytes chunks ++ tail))
    (bounded : l.buf.length < 9223372036854775808) (again : l.zeroChunkReceived = false)
    {fuel : Nat} (enough : (chunkBytes chunks ++ tail).length ≤ fuel) :
    ∃ t, t.At (body ++ chunkData chunks) tail ∧ t.buf.length = l.buf.length ∧
      t.zeroChunkReceived = false ∧ ∃ fuel', tail.length ≤ fuel' ∧
      Imperative.whileLoop
        (fun l => !l.zeroChunkReceived && (mgHttpParseChunk (l.buf.drop l.i)).isSome)
        chunkRound fuel l =
      Imperative.whileLoop
        (fun l => !l.zeroChunkReceived && (mgHttpParseChunk (l.buf.drop l.i)).isSome)
        chunkRound fuel' t := by
  induction chunks generalizing l body fuel with
  | nil =>
    refine ⟨l, ?_, rfl, again, fuel, enough, rfl⟩
    rwa [chunkData, List.flatMap_nil, List.append_nil]
  | cons chunk chunks ih =>
    obtain ⟨first, others⟩ := List.forall_mem_cons.mp nonempty
    have longer := chunk.data_length
    have split : chunkBytes (chunk :: chunks) ++ tail =
        chunk.bytes ++ (chunkBytes chunks ++ tail) := by
      simp [chunkBytes]
    rw [split] at held enough
    have place := held.place
    rw [List.length_append] at place enough
    obtain ⟨t, round, kept, same, zero⟩ := chunkRound_at held bounded
    obtain ⟨fuel, rfl⟩ : ∃ n, fuel = n + 1 := ⟨fuel - 1, by omega⟩
    have found := mgHttpParseChunk_chunk chunk (chunkBytes chunks ++ tail) (by omega)
    rw [← held.remaining] at found
    have enough_left : (chunkBytes chunks ++ tail).length ≤ fuel := by omega
    obtain ⟨u, final, same', zero', fuel', left, loop⟩ := ih others kept (by rw [same]; exact bounded)
      (by rw [zero, decide_eq_false first]) enough_left
    refine ⟨u, by simpa [chunkData] using final, by rw [same', same], zero', fuel', left, ?_⟩
    rw [Imperative.whileLoop_step _ _ _ _ (by rw [again, found]; rfl), round,
      Imperative.Outcome.done_bind, loop]

theorem start_at (body rest : Bytes) :
    (⟨body ++ rest, body.length, body.length, false⟩ : Chunking).At body rest :=
  ⟨List.take_left, rfl, List.drop_left, (List.length_append).symm, Nat.le_refl _⟩

theorem chunkLoop_chunks {chunks : List Chunk} (nonempty : ∀ chunk ∈ chunks, chunk.data ≠ [])
    (body : Bytes) {tail : Bytes} (unfinished : mgHttpParseChunk tail = none)
    (bounded : (body ++ (chunkBytes chunks ++ tail)).length < 9223372036854775808) :
    ∃ t, chunkLoop body.length (body ++ (chunkBytes chunks ++ tail)) = .done t ∧
      t.At (body ++ chunkData chunks) tail ∧ t.zeroChunkReceived = false ∧
      t.buf.length = (body ++ (chunkBytes chunks ++ tail)).length := by
  obtain ⟨t, final, same, zero, fuel, _, loop⟩ := whileLoop_chunks nonempty
    (start_at body (chunkBytes chunks ++ tail)) bounded rfl
    (Nat.le_trans (Nat.le_add_left _ body.length) (Nat.le_of_eq List.length_append.symm))
  refine ⟨t, ?_, final, zero, same⟩
  rw [chunkLoop, loop, Imperative.whileLoop_exit]
  rw [final.remaining, unfinished]
  simp

theorem chunkLoop_last {chunks : List Chunk} (nonempty : ∀ chunk ∈ chunks, chunk.data ≠ [])
    {last : Chunk} (empty : last.data = []) (body surplus : Bytes)
    (bounded : (body ++ (chunkBytes chunks ++ (last.bytes ++ surplus))).length <
      9223372036854775808) :
    ∃ t, chunkLoop body.length (body ++ (chunkBytes chunks ++ (last.bytes ++ surplus))) =
        .done t ∧ t.At (body ++ chunkData chunks) surplus ∧ t.zeroChunkReceived = true ∧
      t.buf.length = (body ++ (chunkBytes chunks ++ (last.bytes ++ surplus))).length := by
  obtain ⟨t, before, same, zero, fuel, left, loop⟩ := whileLoop_chunks nonempty
    (start_at body (chunkBytes chunks ++ (last.bytes ++ surplus))) bounded rfl
    (Nat.le_trans (Nat.le_add_left _ body.length) (Nat.le_of_eq List.length_append.symm))
  obtain ⟨u, round, final, same', ended⟩ := chunkRound_at before (by rw [same]; exact bounded)
  rw [empty, List.append_nil] at final
  have place := before.place
  have longer := last.data_length
  rw [List.length_append] at place left
  have found := mgHttpParseChunk_chunk last surplus (by
    have total := same ▸ bounded
    omega)
  rw [← before.remaining] at found
  obtain ⟨fuel, rfl⟩ : ∃ n, fuel = n + 1 := ⟨fuel - 1, by omega⟩
  refine ⟨u, ?_, final, by rw [ended, decide_eq_true empty], by rw [same', same]⟩
  rw [chunkLoop, loop, Imperative.whileLoop_step _ _ _ _ (by rw [zero, found]; rfl), round,
    Imperative.Outcome.done_bind, Imperative.whileLoop_exit]
  rw [ended]
  simp [empty]

end Collapse

/-- The head of a message whose body is in chunks and has no other length. -/
structure ChunkedHead (isReq : Bool) where
  text : Bytes
  hm : MgHttpMessage
  parsed : ∀ rest, (text ++ rest).length < 2147483648 →
    mgParseHttp isReq (text ++ rest) (wrapInt (text ++ rest).length) = .head text.length hm
  unfinished : ∀ p rest, p ++ rest = text → rest ≠ [] → headLenFrom 0 p = 0
  short : text.length ≤ 8192
  encoded : hm.isChunked = true
  plain : mgGetHttpHeader hm
    (if isReq then str "Sec-WebSocket-Key" else str "Sec-WebSocket-Accept") = none
  unlimited : hm.messageLen = sizeMax

namespace ChunkedHead

variable {isReq : Bool} (r : ChunkedHead isReq)

/-- `body` has been moved together, and `rest` is what has come of the chunks after it. -/
def holding (body rest : Bytes) : MgConnection where
  recvMbuf := r.text ++ (body ++ rest)
  chunkBodyLen := body.length

theorem mgHandleChunked_loop {body stream body' rest : Bytes} {t : Chunking}
    (loop : chunkLoop body.length (body ++ stream) = .done t) (final : t.At body' rest)
    (hm : MgHttpMessage) :
    mgHandleChunked (r.holding body stream) hm r.text.length =
      if t.bodyLen < t.i then
        some (r.holding body' rest, { hm with
          bodyLen := body'.length
          messageLen := if t.zeroChunkReceived then body'.length + rest.length else hm.messageLen })
      else some (r.holding body stream, hm) := by
  have buf : (r.holding body stream).recvMbuf.drop r.text.length = body ++ stream := List.drop_left
  have before : (r.holding body stream).recvMbuf.take r.text.length = r.text := List.take_left
  have within : ¬ (body ++ stream).length < (r.holding body stream).chunkBodyLen := by
    rw [List.length_append]
    exact Nat.not_lt.mpr (Nat.le_add_right _ _)
  have loop' : chunkLoop (r.holding body stream).chunkBodyLen (body ++ stream) = .done t := loop
  rw [mgHandleChunked, buf, if_neg within, loop', before]
  have collapsed : t.buf.take body'.length = body' := by
    rw [← final.length, final.collapsed]
  simp only [final.remaining, final.length, collapsed]
  split
  · simp [holding]
  · rfl

theorem length_chunkBytes (chunks : List Chunk) :
    (chunkData chunks).length + 5 * chunks.length ≤ (chunkBytes chunks).length := by
  induction chunks with
  | nil => exact Nat.le_refl _
  | cons chunk chunks ih =>
    have first := chunk.data_length
    have split : chunkBytes (chunk :: chunks) = chunk.bytes ++ chunkBytes chunks := rfl
    have data : chunkData (chunk :: chunks) = chunk.data ++ chunkData chunks := rfl
    rw [split, data, List.length_append, List.length_append, List.length_cons]
    omega

theorem mgHttpHandler_handled {body stream : Bytes} {nc : MgConnection} {hm : MgHttpMessage}
    (small : (r.text ++ (body ++ stream)).length < 2147483648)
    (handled : mgHandleChunked (r.holding body stream) r.hm r.text.length = some (nc, hm))
    (same : hm.headers = r.hm.headers) :
    mgHttpHandler isReq (r.holding body stream) =
      if hm.messageLen ≤ nc.recvMbuf.length then
        some ({ nc with recvMbuf := nc.recvMbuf.drop hm.messageLen },
          some ⟨hm, nc.recvMbuf.drop r.text.length⟩)
      else some (nc, none) := by
  have parsed : mgParseHttp isReq (r.holding body stream).recvMbuf
      (wrapInt (r.holding body stream).recvMbuf.length) = .head r.text.length r.hm :=
    r.parsed (body ++ stream) small
  have plain : mgGetHttpHeader hm
      (if isReq then str "Sec-WebSocket-Key" else str "Sec-WebSocket-Accept") = none := by
    have other := r.plain
    unfold mgGetHttpHeader at other ⊢
    rwa [same]
  simp only [mgHttpHandler, parsed, r.encoded, if_true, handled, Option.map_some, plain,
    Option.isSome_none, Bool.false_eq_true, if_false]
  split <;> rfl

/-- Whole chunks are moved together, and the message goes on. -/
theorem mgHttpHandler_chunks {chunks : List Chunk} (nonempty : ∀ chunk ∈ chunks, chunk.data ≠ [])
    (body : Bytes) {tail : Bytes} (unfinished : mgHttpParseChunk tail = none)
    (bounded : (r.text ++ (body ++ (chunkBytes chunks ++ tail))).length < 2147483648) :
    mgHttpHandler isReq (r.holding body (chunkBytes chunks ++ tail)) =
      some (r.holding (body ++ chunkData chunks) tail, none) := by
  have small := bounded
  simp only [List.length_append] at bounded
  obtain ⟨t, loop, final, zero, same⟩ := chunkLoop_chunks nonempty body unfinished (by
    simp only [List.length_append]
    omega)
  have handled := r.mgHandleChunked_loop loop final r.hm
  have moved := length_chunkBytes chunks
  have place := final.place
  rw [same] at place
  simp only [List.length_append] at place
  rw [final.length, List.length_append] at handled
  have size_max : sizeMax = 18446744073709551615 := rfl
  by_cases none_there : chunks = []
  · subst none_there
    have nothing : (chunkBytes []).length = 0 := rfl
    have no_data : (chunkData []).length = 0 := rfl
    rw [if_neg (by omega)] at handled
    have waits : ¬ r.hm.messageLen ≤ (r.holding body (chunkBytes [] ++ tail)).recvMbuf.length := by
      simp only [holding, List.length_append, r.unlimited]
      omega
    rw [r.mgHttpHandler_handled small handled rfl, if_neg waits, chunkData, List.flatMap_nil,
      List.append_nil]
    rfl
  · have some_there := List.length_pos_iff.mpr none_there
    rw [if_pos (by omega), zero] at handled
    have waits : ¬ r.hm.messageLen ≤ (r.holding (body ++ chunkData chunks) tail).recvMbuf.length := by
      simp only [holding, List.length_append, r.unlimited]
      omega
    rw [r.mgHttpHandler_handled small handled rfl]
    exact if_neg waits

def complete (body surplus : Bytes) : MgHttpMessage :=
  { r.hm with bodyLen := body.length, messageLen := body.length + surplus.length }

/-- The buffer loses as many bytes as there are behind the head, and keeps as many as the head
has. -/
def left (body surplus : Bytes) : MgConnection where
  recvMbuf := (r.text ++ (body ++ surplus)).drop (body.length + surplus.length)
  chunkBodyLen := body.length

theorem mgHttpHandler_last {chunks : List Chunk} (nonempty : ∀ chunk ∈ chunks, chunk.data ≠ [])
    {last : Chunk} (empty : last.data = []) (body surplus : Bytes)
    (bounded : (r.text ++ (body ++ (chunkBytes chunks ++ (last.bytes ++ surplus)))).length <
      2147483648) :
    mgHttpHandler isReq (r.holding body (chunkBytes chunks ++ (last.bytes ++ surplus))) =
      some (r.left (body ++ chunkData chunks) surplus,
        some ⟨r.complete (body ++ chunkData chunks) surplus, body ++ chunkData chunks ++ surplus⟩) := by
  have small := bounded
  simp only [List.length_append] at bounded
  obtain ⟨t, loop, final, zero, same⟩ := chunkLoop_last nonempty empty body surplus (by
    simp only [List.length_append]
    omega)
  have handled := r.mgHandleChunked_loop loop final r.hm
  have moved := length_chunkBytes chunks
  have marker := last.data_length
  have place := final.place
  have length := final.length
  rw [same] at place
  simp only [List.length_append] at place length
  rw [if_pos (by omega), zero] at handled
  have there : (r.complete (body ++ chunkData chunks) surplus).messageLen ≤
      (r.holding (body ++ chunkData chunks) surplus).recvMbuf.length := by
    simp only [complete, holding, List.length_append]
    omega
  have behind : (r.holding (body ++ chunkData chunks) surplus).recvMbuf.drop r.text.length =
      body ++ chunkData chunks ++ surplus := List.drop_left
  have result := r.mgHttpHandler_handled small handled rfl
  rw [if_pos rfl] at result
  rw [result, behind]
  exact if_pos there

/-- What is held when `past` has come: a part of the head, or the head, the data of some chunks and
a part of the next one. -/
def Holds (chunks : List Chunk) (past : Bytes) (nc : MgConnection) : Prop :=
  (∃ rest, rest ≠ [] ∧ past ++ rest = r.text ∧ nc = { recvMbuf := past }) ∨
  ∃ gone ahead tail, chunks = gone ++ ahead ∧ past = r.text ++ (chunkBytes gone ++ tail) ∧
    nc = r.holding (chunkData gone) tail

end ChunkedHead

theorem chunk_part {chunk : Chunk} {p rest : Bytes} (part : p ++ rest = chunk.bytes)
    (unfinished : rest ≠ []) (small : chunk.bytes.length < 18446744073709551616) :
    mgHttpParseChunk p = none := by
  by_contra found
  obtain ⟨c, found⟩ := Option.ne_none_iff_exists'.mp found
  obtain ⟨within, more⟩ := mgHttpParseChunk_append found rest
  have whole := mgHttpParseChunk_chunk chunk [] small
  have longer := List.length_pos_iff.mpr unfinished
  have length := congrArg List.length part
  rw [List.append_nil, ← part, more] at whole
  rw [List.length_append] at length
  have same := congrArg ParsedChunk.n (Option.some.inj whole)
  simp only [List.length_append] at same
  omega

theorem split_chunks {chunks : List Chunk} {last : Chunk} {p rest : Bytes}
    (all : p ++ rest = chunkBytes chunks ++ last.bytes) (unfinished : rest ≠ [])
    (small : (chunkBytes chunks ++ last.bytes).length < 18446744073709551616) :
    ∃ gone ahead tail, chunks = gone ++ ahead ∧ p = chunkBytes gone ++ tail ∧
      mgHttpParseChunk tail = none := by
  induction chunks generalizing p with
  | nil => exact ⟨[], [], p, rfl, rfl, chunk_part all unfinished small⟩
  | cons chunk chunks ih =>
    have split : chunkBytes (chunk :: chunks) ++ last.bytes =
        chunk.bytes ++ (chunkBytes chunks ++ last.bytes) :=
      List.append_assoc _ _ _
    rw [split] at all small
    rw [List.length_append] at small
    rcases List.append_eq_append_iff.mp all with ⟨more, whole, _⟩ | ⟨behind, came, later⟩
    · by_cases complete : more = []
      · subst complete
        rw [List.append_nil] at whole
        refine ⟨[chunk], chunks, [], rfl, by simp [chunkBytes, whole], by decide⟩
      · exact ⟨[], chunk :: chunks, p, rfl, rfl, chunk_part whole.symm complete (by omega)⟩
    · obtain ⟨gone, ahead, tail, rfl, rfl, waits⟩ := ih later.symm (by omega)
      exact ⟨chunk :: gone, ahead, tail, rfl, by simp [came, chunkBytes], waits⟩

namespace ChunkedHead

variable {isReq : Bool} (r : ChunkedHead isReq) {chunks : List Chunk} {last : Chunk}

def bytes (chunks : List Chunk) (last : Chunk) : Bytes :=
  r.text ++ (chunkBytes chunks ++ last.bytes)

theorem chunkBytes_append (gone ahead : List Chunk) :
    chunkBytes (gone ++ ahead) = chunkBytes gone ++ chunkBytes ahead :=
  List.flatMap_append

theorem chunkData_append (gone ahead : List Chunk) :
    chunkData (gone ++ ahead) = chunkData gone ++ chunkData ahead :=
  List.flatMap_append

theorem flatten_le (gone : List Chunk) : (chunkData gone).length ≤ (chunkBytes gone).length :=
  Nat.le_trans (Nat.le_add_right _ _) (length_chunkBytes gone)

theorem mgHttpHandler_more (nonempty : ∀ chunk ∈ chunks, chunk.data ≠ [])
    (bounded : (r.bytes chunks last).length < 2147483648) {gone ahead : List Chunk}
    (these : chunks = gone ++ ahead) {stream rest : Bytes}
    (all : stream ++ rest = chunkBytes ahead ++ last.bytes) (unfinished : rest ≠ []) :
    ∃ nc, mgHttpHandler isReq (r.holding (chunkData gone) stream) = some (nc, none) ∧
      r.Holds chunks (r.text ++ (chunkBytes gone ++ stream)) nc := by
  subst these
  have length := congrArg List.length all
  have shorter := flatten_le gone
  simp only [bytes, chunkBytes_append, List.length_append] at bounded length
  obtain ⟨more, later, tail, rfl, rfl, waits⟩ := split_chunks all unfinished (by
    rw [List.length_append]
    omega)
  have present : ∀ chunk ∈ more, chunk.data ≠ [] := by
    intro chunk member
    exact nonempty chunk (by simp [member])
  refine ⟨_, r.mgHttpHandler_chunks present (chunkData gone) waits ?_,
    .inr ⟨gone ++ more, later, tail, ?_, ?_, ?_⟩⟩
  · simp only [List.length_append] at length ⊢
    omega
  · rw [List.append_assoc]
  · rw [chunkBytes_append, List.append_assoc (chunkBytes gone)]
  · rw [chunkData_append]

theorem mgHttpHandler_in_text {p rest : Bytes} (part : p ++ rest = r.text) (unfinished : rest ≠ []) :
    mgHttpHandler isReq { recvMbuf := p } = some ({ recvMbuf := p }, none) := by
  have zero := r.unfinished p rest part unfinished
  have longer := List.length_pos_iff.mpr unfinished
  have length := congrArg List.length part
  have short := r.short
  rw [List.length_append] at length
  have patient : ¬ 8192 ≤ p.length := by omega
  have parsed : mgParseHttp isReq p (wrapInt p.length) = .unfinished := by
    rw [mgParseHttp, mgHttpGetRequestLen_all (by omega), zero]
    rfl
  simp only [mgHttpHandler, parsed, if_neg patient]

theorem text_ne_nil : r.text ≠ [] := by
  intro empty
  have parsed := r.parsed []
  rw [empty, List.append_nil] at parsed
  exact Parsed.noConfusion (parsed (by decide))

theorem Holds.arrived {past piece rest later : Bytes} {nc : MgConnection}
    (held : r.Holds chunks past nc) (split : past ++ piece ++ rest = r.text ++ later) :
    (∃ lack, lack ≠ [] ∧ past ++ piece ++ lack = r.text ∧
      { nc with recvMbuf := nc.recvMbuf ++ piece } = ({ recvMbuf := past ++ piece } : MgConnection)) ∨
    ∃ gone ahead stream, chunks = gone ++ ahead ∧
      past ++ piece = r.text ++ (chunkBytes gone ++ stream) ∧
      { nc with recvMbuf := nc.recvMbuf ++ piece } = r.holding (chunkData gone) stream := by
  rcases held with ⟨more, _, _, rfl⟩ | ⟨gone, ahead, tail, these, rfl, rfl⟩
  · by_cases complete : r.text.length ≤ (past ++ piece).length
    · obtain ⟨stream, came⟩ := List.prefix_of_prefix_length_le ⟨later, split.symm⟩
        (List.prefix_append _ rest) complete
      exact .inr ⟨[], chunks, stream, rfl, came.symm, by rw [← came]; rfl⟩
    · obtain ⟨lack, part⟩ := List.prefix_of_prefix_length_le (List.prefix_append _ rest)
        ⟨later, split.symm⟩ (Nat.le_of_not_le complete)
      refine .inl ⟨lack, ?_, part, rfl⟩
      rintro rfl
      rw [List.append_nil] at part
      exact complete (by rw [part])
  · exact .inr ⟨gone, ahead, tail ++ piece, these, by simp, by simp [holding]⟩

theorem Holds.receives {past : Bytes} {nc : MgConnection} (held : r.Holds chunks past nc)
    (piece : Bytes) :
    mgRecv isReq nc piece = mgHttpHandler isReq { nc with recvMbuf := nc.recvMbuf ++ piece } := by
  rcases held with ⟨more, _, _, rfl⟩ | ⟨gone, ahead, tail, _, _, rfl⟩ <;> rfl

variable {μ : Type} (view : Trigger → Option μ)

theorem waits (nonempty : ∀ chunk ∈ chunks, chunk.data ≠ [])
    (bounded : (r.bytes chunks last).length < 2147483648) :
    Pieces.Waits (receiveAs isReq view) (r.Holds chunks) 2147483648 (r.bytes chunks last) := by
  intro past piece rest nc split unfinished _ held
  have handled : ∃ t, mgRecv isReq nc piece = some (t, none) ∧ r.Holds chunks (past ++ piece) t := by
    rw [held.receives]
    rcases held.arrived r split with ⟨lack, missing, part, same⟩ | ⟨gone, ahead, stream, these, came, same⟩
    · rw [same]
      exact ⟨_, r.mgHttpHandler_in_text part missing, .inl ⟨lack, missing, part, rfl⟩⟩
    · rw [same, came]
      refine r.mgHttpHandler_more nonempty bounded these ?_ unfinished
      rw [came, bytes, these, chunkBytes_append] at split
      simpa using split
  obtain ⟨t, received, kept⟩ := handled
  exact ⟨t, by rw [receiveAs, received], kept⟩

/-- A message in chunks, however it is cut, and the first read that has its end: the body is
handed over, and what is left is not what came after the message. -/
theorem run_chunked (nonempty : ∀ chunk ∈ chunks, chunk.data ≠ []) (empty : last.data = [])
    {reads : List Bytes} {read lack surplus : Bytes} {m : μ} (unfinished : lack ≠ [])
    (before : reads.flatten ++ lack = r.bytes chunks last)
    (all : reads.flatten ++ read = r.bytes chunks last ++ surplus)
    (bounded : (r.bytes chunks last ++ surplus).length < 2147483648)
    (seen : view ⟨r.complete (chunkData chunks) surplus, chunkData chunks ++ surplus⟩ = some m) :
    Run.run (receiveAs isReq view) {} (reads ++ [read]) =
      some (r.left (chunkData chunks) surplus, List.replicate reads.length none ++ [some m]) := by
  have whole_bounded : (r.bytes chunks last).length < 2147483648 := by
    rw [List.length_append] at bounded
    omega
  have early : ([] ++ reads.flatten).length < 2147483648 := by
    have length := congrArg List.length before
    rw [List.length_append] at length
    rw [List.nil_append]
    omega
  have start : r.Holds chunks [] {} := .inl ⟨r.text, r.text_ne_nil, rfl, rfl⟩
  obtain ⟨nc, waited, held⟩ := (r.waits view nonempty whole_bounded).run start
    (by rw [List.nil_append, before]) unfinished early
  rw [List.nil_append] at held
  have split : reads.flatten ++ read ++ [] =
      r.text ++ (chunkBytes chunks ++ (last.bytes ++ surplus)) := by
    rw [List.append_nil, all, bytes]
    simp
  have received : mgRecv isReq nc read = some (r.left (chunkData chunks) surplus,
      some ⟨r.complete (chunkData chunks) surplus, chunkData chunks ++ surplus⟩) := by
    rw [held.receives]
    rcases held.arrived r split with ⟨more, missing, part, _⟩ | ⟨gone, ahead, stream, rfl, came, same⟩
    · have longer := List.length_pos_iff.mpr missing
      have length := congrArg List.length part
      rw [all, bytes] at length
      simp only [List.length_append] at length
      omega
    · have rest : stream = chunkBytes ahead ++ (last.bytes ++ surplus) := by
        rw [List.append_nil, came, chunkBytes_append] at split
        simpa using split
      have present : ∀ chunk ∈ ahead, chunk.data ≠ [] := by
        intro chunk member
        exact nonempty chunk (by simp [member])
      have shorter := flatten_le gone
      rw [same, rest, r.mgHttpHandler_last present empty (chunkData gone) surplus ?_,
        chunkData_append]
      simp only [bytes, chunkBytes_append, List.length_append] at bounded ⊢
      omega
  rw [Run.run_append_eq_some]
  refine ⟨nc, _, [some m], waited, ?_, rfl⟩
  have finished : receiveAs isReq view nc read = some (r.left (chunkData chunks) surplus, some m) := by
    rw [receiveAs, received]
    simp [seen]
  rw [Run.run_cons finished]
  rfl

end ChunkedHead

section Requests

/-- The body of the request is in chunks, and has no other length. -/
structure RequestHead.Encoded (r : RequestHead) : Prop where
  hasBody : r.HasBody
  undeclared : declared r.fields = none
  chunked : ∃ f, r.fields.find? (fun f => f.name.map tolower = str "transfer-encoding") = some f ∧
    f.value.map tolower = str "chunked"
  plain : ∀ f ∈ r.fields, f.name.map tolower ≠ str "sec-websocket-key"

theorem RequestHead.Encoded.head {r : RequestHead} (encoded : r.Encoded) :
    ∃ c : ChunkedHead true, c.text = r.text ∧ r.Read c.hm := by
  obtain ⟨hm, read, parsed⟩ := r.mgParseHttp_text
  obtain ⟨f, found, value⟩ := encoded.chunked
  obtain ⟨v, header, same⟩ := getHttpHeader_value (str "Transfer-Encoding") (str "chunked")
    read.headers (forall_mem_of_all (by decide)) found
  have plain : mgGetHttpHeader hm (str "Sec-WebSocket-Key") = none := by
    refine getHttpHeader_none _ read.headers (forall_mem_of_all (by decide)) ?_
    intro f member
    exact encoded.plain f member
  refine ⟨⟨r.text, hm, parsed, fun p rest => headLenFrom_in_head r.requestLine_isLine r.fields,
    r.length_text,
    ?_, plain, ?_⟩, rfl, read⟩
  · rw [MgHttpMessage.isChunked, header, Option.any_some, decide_eq_true_iff, same, value]
    decide
  · rw [read.messageLen]
    simp [RequestHead.lengths, encoded.undeclared, encoded.hasBody]

/-- A request in chunks, however it is cut: the read with its end hands over the reassembled body.
The connection is not ready for another request then: as many bytes as the head has stay in the
buffer, and the length of the body is not forgotten. -/
theorem chunked_request_delivered (r : RequestHead) (encoded : r.Encoded) (chunks : List Chunk)
    (last : Chunk) (nonempty : ∀ chunk ∈ chunks, chunk.data ≠ []) (empty : last.data = [])
    (reads : List Bytes) (read lack surplus : Bytes) (unfinished : lack ≠ [])
    (before : reads.flatten ++ lack = r.text ++ (chunkBytes chunks ++ last.bytes))
    (all : reads.flatten ++ read = r.text ++ (chunkBytes chunks ++ last.bytes) ++ surplus)
    (bounded : (r.text ++ (chunkBytes chunks ++ last.bytes) ++ surplus).length < 2147483648) :
    ∃ nc, Run.run mgReceive {} (reads ++ [read]) =
        some (nc, List.replicate reads.length none ++
          [some ⟨r.method, r.uri, chunkData chunks⟩]) ∧
      nc.recvMbuf = (r.text ++ (chunkData chunks ++ surplus)).drop
        ((chunkData chunks).length + surplus.length) ∧
      nc.recvMbuf.length = r.text.length ∧ nc.chunkBodyLen = (chunkData chunks).length := by
  obtain ⟨c, text, parsed⟩ := encoded.head
  rw [← text] at before all bounded ⊢
  have seen : Trigger.message ⟨c.complete (chunkData chunks) surplus, chunkData chunks ++ surplus⟩ =
      some ⟨r.method, r.uri, chunkData chunks⟩ := by
    have within : (c.complete (chunkData chunks) surplus).bodyLen ≤
        (chunkData chunks ++ surplus).length := by
      rw [List.length_append]
      exact Nat.le_add_right _ _
    rw [Trigger.message, if_pos within]
    simp [ChunkedHead.complete, parsed.method, parsed.uri]
  refine ⟨_, c.run_chunked Trigger.message nonempty empty unfinished before all bounded seen, rfl, ?_,
    rfl⟩
  simp only [ChunkedHead.left, List.length_drop, List.length_append]
  omega

def chunkedField : Field where
  name := str "transfer-encoding"
  value := str "Chunked"
  named := by decide
  name_visible := forall_mem_of_all (by decide)
  valued := by decide
  value_text := forall_mem_of_all (by decide)
  value_head := by rintro ch ⟨⟩; decide
  value_last := by rintro ch ⟨⟩; decide

def postChunked : RequestHead := postHead [chunkedField] (by decide) (by decide)

theorem postChunked_encoded : postChunked.Encoded where
  hasBody := by decide
  undeclared := by decide
  chunked := ⟨chunkedField, rfl, by decide⟩
  plain := by decide

def tenBytes : Chunk where
  size := str "0a"
  data := str "0123456789"
  some_digits := by decide
  digits := forall_mem_of_all (by decide)
  counted := by decide

theorem chunked_request_delivered_post :
    ∃ nc, Run.run mgReceive {}
        ([(postChunked.text ++ (chunkBytes [tenBytes] ++ (Chunk.ofData []).bytes)).take 70] ++
          [(postChunked.text ++ (chunkBytes [tenBytes] ++ (Chunk.ofData []).bytes)).drop 70]) =
        some (nc, [none, some ⟨str "POST", str "/stream/create", str "0123456789"⟩]) ∧
      nc.recvMbuf = (postChunked.text ++ (str "0123456789" ++ [])).drop 10 ∧
      nc.recvMbuf.length = postChunked.text.length ∧ nc.chunkBodyLen = 10 :=
  chunked_request_delivered postChunked postChunked_encoded [tenBytes] (.ofData []) (by decide) rfl
    [(postChunked.text ++ (chunkBytes [tenBytes] ++ (Chunk.ofData []).bytes)).take 70]
    ((postChunked.text ++ (chunkBytes [tenBytes] ++ (Chunk.ofData []).bytes)).drop 70)
    ((postChunked.text ++ (chunkBytes [tenBytes] ++ (Chunk.ofData []).bytes)).drop 70) []
    (by decide) (by simp) (by simp) (by decide)

end Requests

end HttpAudioServer

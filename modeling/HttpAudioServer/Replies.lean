import HttpAudioServer.Chunks
import HttpAudioServer.Transfer

/-! What the server answers, read by mongoose as a client: the status and the body are those that
a handler gave. -/
namespace HttpAudioServer

section Text

theorem str_append (s t : String) : str (s ++ t) = str s ++ str t := by
  simp [str]

def codeText (code : Nat) : Bytes := (Nat.toDigits 10 code).map Char.toUInt8

theorem decimalDigit_digitChar {d : Nat} (digit : d < 10) :
    decimalDigit (Nat.digitChar d).toUInt8 = some d := by
  have all : ∀ d < 10, decimalDigit (Nat.digitChar d).toUInt8 = some d := by decide
  exact all d digit

theorem str_toString (code : Nat) : str (toString (code : Int)) = codeText code := by
  have text : str (toString (code : Int)) = (Nat.toDigits 10 code).flatMap String.utf8EncodeChar :=
    congrArg (List.flatMap String.utf8EncodeChar) Nat.toList_repr
  have ascii : ∀ ch ∈ Nat.toDigits 10 code, String.utf8EncodeChar ch = [ch.toUInt8] := by
    intro ch member
    have digit := Nat.isDigit_of_mem_toDigits (by decide) (by decide) member
    have low : ch.val ≤ 57 := by
      simp only [Char.isDigit, Bool.and_eq_true, decide_eq_true_eq] at digit
      exact digit.2
    exact String.utf8EncodeChar_eq_singleton
      (Char.utf8Size_eq_one_iff.mpr (UInt32.le_trans low (by decide)))
  rw [text, List.flatMap_congr ascii, codeText, List.map_eq_flatMap]

theorem codeText_digits (code : Nat) : ∀ ch ∈ codeText code, (decimalDigit ch).isSome = true :=
  (toDigits_read (by decide) (fun _ => decimalDigit_digitChar) code).1

theorem length_codeText {code : Nat} (status : 100 ≤ code ∧ code < 600) :
    (codeText code).length = 3 := by
  have upper := (Nat.length_toDigits_le_iff (b := 10) (n := code) (k := 3) (by decide) (by decide)).mpr
    (by omega)
  have lower := mt (Nat.length_toDigits_le_iff (b := 10) (n := code) (k := 2) (by decide)
    (by decide)).mp (by omega)
  rw [codeText, List.length_map]
  omega

theorem isText_of_digit {ch : UInt8} (digit : (decimalDigit ch).isSome = true) :
    isText ch = true ∧ isSpace ch = false ∧ ch ≠ 43 ∧ ch ≠ 45 ∧ ch ≠ 32 := by
  unfold decimalDigit at digit
  split at digit
  case isTrue range =>
    have low : 48 ≤ ch.toNat := range.1
    have high : ch.toNat ≤ 57 := range.2
    have printed : isText ch = true := by
      simp only [isText, isPrint, Bool.or_eq_true, Bool.and_eq_true, decide_eq_true_eq]
      exact .inl ⟨UInt8.le_trans (by decide) range.1, UInt8.le_trans range.2 (by decide)⟩
    have other (x : UInt8) (below : x.toNat < 48) : ch ≠ x := by
      rintro rfl
      omega
    exact ⟨printed, not_isSpace_of_isText printed (other 32 (by decide)), other 43 (by decide),
      other 45 (by decide), other 32 (by decide)⟩
  case isFalse => contradiction

theorem to64_codeText {code : Nat} (small : code < 600) (rest : Bytes)
    (stops : ∀ ch ∈ rest.head?, decimalDigit ch = none) : to64 (codeText code ++ rest) = code := by
  obtain ⟨digits, value⟩ := toDigits_read (by decide) (fun _ => decimalDigit_digitChar) code
  rw [← codeText] at digits value
  have some_digits : codeText code ≠ [] := by
    rw [codeText, ne_eq, List.map_eq_nil_iff]
    exact Nat.toDigits_ne_nil
  obtain ⟨ch, word, same⟩ := List.exists_cons_of_ne_nil some_digits
  obtain ⟨_, solid, plus, minus, _⟩ := isText_of_digit (digits ch (by rw [same]; exact List.mem_cons_self))
  have scanned : scanDigits decimalDigit (codeText code) = (codeText code).filterMap decimalDigit := by
    rw [scanDigits, List.takeWhile_eq_self_iff.mpr digits]
  have kept : (ch :: word).dropWhile isSpace = ch :: word :=
    List.dropWhile_cons_of_neg (by simp [solid])
  have unsigned : scanSign (ch :: word) = (false, ch :: word) := by
    unfold scanSign
    split <;> simp_all
  rw [same, to64_append solid word stops]
  simp only [to64, kept, unsigned, Bool.false_eq_true, if_false]
  rw [← same, scanned, value]
  omega

end Text

def serverField : Field where
  name := str "Server"
  value := str "Mongoose/6.5"
  named := by decide
  name_visible := forall_mem_of_all (by decide)
  valued := by decide
  value_text := forall_mem_of_all (by decide)
  value_head := by rintro ch ⟨⟩; decide
  value_last := by rintro ch ⟨⟩; decide

def encodingField : Field where
  name := str "Transfer-Encoding"
  value := str "chunked"
  named := by decide
  name_visible := forall_mem_of_all (by decide)
  valued := by decide
  value_text := forall_mem_of_all (by decide)
  value_head := by rintro ch ⟨⟩; decide
  value_last := by rintro ch ⟨⟩; decide

/-- The head of an answer: its status, and the headers that a handler gives it. -/
structure ReplyHead where
  code : Nat
  fields : List Field
  status : 100 ≤ code ∧ code < 600
  few : fields.length < 37
  undeclared : declared fields = none
  plain : ∀ f ∈ fields,
    f.name.map tolower ∉ [str "transfer-encoding", str "sec-websocket-accept"]
  short : (lines (fields.map Field.line)).length ≤ 8000

namespace ReplyHead

variable (r : ReplyHead)

def headers : Headers := r.fields.map fun f => (f.name, f.value)

def statusLine : Bytes := str "HTTP/1.1 " ++ codeText r.code ++ str " " ++ str (statusMessage r.code)

def allFields : List Field := serverField :: (r.fields ++ [encodingField])

def text : Bytes := headText r.statusLine r.allFields

theorem extraHeaders_lines (fs : List Field) (some_fields : fs ≠ []) :
    extraHeaders (fs.map fun f => (f.name, f.value)) ++ crlf = lines (fs.map Field.line) := by
  induction fs with
  | nil => exact absurd rfl some_fields
  | cons f fs ih =>
    cases fs with
    | nil => simp [extraHeaders, lines, Field.line]
    | cons g fs =>
      have later := ih (List.cons_ne_nil g fs)
      have newline : str "\r\n" = crlf := by decide
      simp only [extraHeaders, lines, List.map_cons, List.flatMap_cons, newline, Field.line,
        List.intercalate_cons_cons] at later ⊢
      rw [← later]
      simp

theorem extraHeaders_text : ∀ ch ∈ extraHeaders r.headers, ch ≠ 0 := by
  intro ch member
  by_cases nothing : r.fields = []
  · simp [headers, nothing, extraHeaders] at member
  · have inLines : ch ∈ lines (r.fields.map Field.line) := by
      rw [← extraHeaders_lines r.fields nothing]
      exact List.mem_append_left _ member
    obtain ⟨line, isLine, inLine⟩ := List.mem_flatMap.mp inLines
    obtain ⟨f, _, rfl⟩ := List.mem_map.mp isLine
    rcases List.mem_append.mp inLine with own | ended
    · exact ne_zero_of_isText (f.isLine.2 ch own)
    · exact (forall_mem_of_all (by decide) : ∀ ch ∈ crlf, ch ≠ 0) ch ended

theorem head_bytes : (Sent.head r.code (extraHeaders r.headers)).bytes = r.text := by
  have whole : (extraHeaders r.headers).takeWhile (· ≠ 0) = extraHeaders r.headers := by
    rw [List.takeWhile_eq_self_iff]
    intro ch member
    simpa using r.extraHeaders_text ch member
  have first : str s!"HTTP/1.1 {(r.code : Int)} {statusMessage r.code}\r\nServer: Mongoose/6.5\r\n" =
      r.statusLine ++ crlf ++ serverField.line ++ crlf := by
    have parts : str s!"HTTP/1.1 {(r.code : Int)} {statusMessage r.code}\r\nServer: Mongoose/6.5\r\n" =
        str ("HTTP/1.1 " ++ toString (r.code : Int) ++ " " ++ statusMessage r.code ++
          "\r\nServer: Mongoose/6.5\r\n") := rfl
    have server : str "\r\nServer: Mongoose/6.5\r\n" = crlf ++ (serverField.line ++ crlf) := by decide
    rw [parts, str_append, str_append, str_append, str_append, str_toString, server, statusLine]
    simp
  have last : str "Transfer-Encoding: chunked\r\n" ++ str "\r\n" =
      encodingField.line ++ crlf ++ crlf := by decide
  have middle : (if extraHeaders r.headers = [] then [] else extraHeaders r.headers ++ str "\r\n") =
      lines (r.fields.map Field.line) := by
    by_cases nothing : r.fields = []
    · simp [headers, nothing, extraHeaders, lines]
    · have joined := extraHeaders_lines r.fields nothing
      have present : extraHeaders r.headers ≠ [] := by
        intro empty
        rw [← headers, empty, List.nil_append] at joined
        obtain ⟨f, fs, same⟩ := List.exists_cons_of_ne_nil nothing
        have length := congrArg List.length joined
        have longer := List.length_pos_iff.mpr f.isLine.1
        simp only [same, lines, List.map_cons, List.flatMap_cons, List.length_append,
          show crlf.length = 2 from rfl] at length
        omega
      rw [if_neg present]
      exact joined
  rw [Sent.bytes, whole, first, middle, List.append_assoc _ (str "Transfer-Encoding: chunked\r\n"), last]
  simp [text, headText, allFields, lines]

theorem statusMessage_text (code : Int) : IsLine (str (statusMessage code)) := by
  have all : ∀ message ∈ ["Partial Content", "Moved", "Found", "Unauthorized", "Forbidden",
      "Not Found", "Requested range not satisfiable", "I'm a teapot", "Internal Server Error", "OK"],
      str message ≠ [] ∧ (str message).all isText = true := by decide
  have isLine (message : String) (known : str message ≠ [] ∧ (str message).all isText = true) :
      IsLine (str message) := ⟨known.1, List.all_eq_true.mp known.2⟩
  apply isLine
  apply all
  unfold statusMessage
  split_ifs <;> simp

theorem statusLine_isLine : IsLine r.statusLine := by
  refine ⟨by simp [statusLine, str], ?_⟩
  intro ch member
  simp only [statusLine, List.mem_append] at member
  rcases member with ((version | digit) | blank) | message
  · exact (forall_mem_of_all (by decide) : ∀ ch ∈ str "HTTP/1.1 ", isText ch = true) ch version
  · exact (isText_of_digit (codeText_digits r.code ch digit)).1
  · exact (forall_mem_of_all (by decide) : ∀ ch ∈ str " ", isText ch = true) ch blank
  · exact (statusMessage_text r.code).2 ch message

theorem codeText_isWord : IsWord (codeText r.code) := by
  refine ⟨?_, fun ch member => ?_⟩
  · rw [codeText, ne_eq, List.map_eq_nil_iff]
    exact Nat.toDigits_ne_nil
  · obtain ⟨text, _, _, _, blank⟩ := isText_of_digit (codeText_digits r.code ch member)
    exact isVisible_iff.mpr ⟨text, blank⟩

theorem parseStatusLine_text :
    ∃ hm, parseStatusLine r.text = some (hm, fieldsText r.allFields) ∧ hm.respCode = r.code ∧
      hm.headers = [] ∧ hm.bodyLen = sizeMax ∧ hm.messageLen = sizeMax := by
  obtain ⟨ds, some_delims, between, split, beyond⟩ := fieldsText_skipped r.allFields
  have message := mgSkip_token ds _ (text_inside (statusMessage_text r.code).2) some_delims between beyond
  have count := length_codeText r.status
  have blank : str " " = [32] := by decide
  have version := isWord_http.mgSkip
    (codeText r.code ++ (str " " ++ (str (statusMessage r.code) ++ ds ++ fieldsText r.allFields)))
    (r.codeText_isWord.head_inside _)
  have whole : r.text = str "HTTP/1.1" ++ str " " ++ (codeText r.code ++
      (str " " ++ (str (statusMessage r.code) ++ ds ++ fieldsText r.allFields))) := by
    have opening : str "HTTP/1.1 " = str "HTTP/1.1" ++ str " " := by decide
    rw [List.append_assoc (str (statusMessage r.code)), ← split, text, headText, statusLine, opening]
    simp [lines]
  have number := to64_codeText r.status.2 (str " " ++
    (str (statusMessage r.code) ++ ds ++ fieldsText r.allFields)) (by
      rw [blank]
      rintro ch ⟨⟩
      decide)
  have small : wrapInt (r.code : Int) = r.code := by
    have status := r.status
    rw [wrapInt, Int.bmod_eq_of_le] <;> omega
  have fourth : (codeText r.code ++
      (str " " ++ (str (statusMessage r.code) ++ ds ++ fieldsText r.allFields)))[3]? = some 32 := by
    rw [List.getElem?_append_right (by omega), count, blank]
    rfl
  have behind : (codeText r.code ++
      (str " " ++ (str (statusMessage r.code) ++ ds ++ fieldsText r.allFields))).drop 4 =
      str (statusMessage r.code) ++ ds ++ fieldsText r.allFields := by
    rw [← List.append_assoc, show (4 : Nat) = (codeText r.code ++ str " ").length by simp [count, blank],
      List.drop_left]
  have longer : ¬ ((codeText r.code ++
      (str " " ++ (str (statusMessage r.code) ++ ds ++ fieldsText r.allFields))).length < 4 ∨
      (codeText r.code ++ (str " " ++
        (str (statusMessage r.code) ++ ds ++ fieldsText r.allFields)))[3]? ≠ some 32) := by
    rw [fourth, List.length_append, count, List.length_append, show (str " ").length = 1 from rfl]
    simp
    omega
  have status := r.status
  have known : ¬ ((r.code : Int) < 100 ∨ 600 ≤ (r.code : Int)) := by omega
  rw [whole, parseStatusLine, version]
  simp only [if_neg longer, number, small, if_neg known, behind, message]
  exact ⟨_, rfl, rfl, rfl, rfl, rfl⟩

theorem length_text : r.text.length ≤ 8192 := by
  have short := r.short
  have code := length_codeText r.status
  have message : (str (statusMessage r.code)).length ≤ 31 := by
    have all : ∀ message ∈ ["Partial Content", "Moved", "Found", "Unauthorized", "Forbidden",
        "Not Found", "Requested range not satisfiable", "I'm a teapot", "Internal Server Error", "OK"],
        (str message).length ≤ 31 := by decide
    apply all
    unfold statusMessage
    split_ifs <;> simp
  have fixed : (str "HTTP/1.1 ").length = 9 ∧ (str " ").length = 1 ∧ crlf.length = 2 ∧
      serverField.line.length = 20 ∧ encodingField.line.length = 26 := by decide
  obtain ⟨version, blank, two, server, encoding⟩ := fixed
  simp only [lines] at short
  simp only [text, headText, lines, allFields, statusLine, List.map_cons, List.map_append,
    List.map_nil, List.flatMap_cons, List.flatMap_append, List.flatMap_nil, List.append_nil,
    List.length_append, version, blank, two, server, encoding, code]
  omega

theorem chunkedHead : ∃ c : ChunkedHead false, c.text = r.text ∧ c.hm.respCode = r.code := by
  obtain ⟨line, parsed, code, headers, bodyLen, messageLen⟩ := r.parseStatusLine_text
  have few : r.allFields.length < 39 := by
    have few := r.few
    simp only [allFields, List.length_cons, List.length_append, List.length_nil]
    omega
  have undeclared : declared r.allFields = none := by
    have own := declared_eq_none.mp r.undeclared
    rw [declared_eq_none]
    intro f member
    simp only [allFields, List.mem_cons, List.mem_append, List.not_mem_nil, or_false] at member
    rcases member with rfl | given | rfl
    · decide
    · exact own f given
    · decide
  have fields := mgHttpParseHeaders_fields r.text.length few line
  rw [foldl_addHeader, undeclared, headers, List.nil_append] at fields
  let hm : MgHttpMessage := { line with headers := parsedFields r.allFields }
  have read : mgHttpParseHeaders r.text.length 39 (fieldsText r.allFields) line = hm := fields
  have begins : r.text.dropWhile isSpace = r.text := rfl
  have found : r.allFields.find? (fun f => f.name.map tolower = (str "Transfer-Encoding").map tolower) =
      some encodingField := by
    have others : (serverField :: r.fields).find?
        (fun f => f.name.map tolower = (str "Transfer-Encoding").map tolower) = none := by
      rw [List.find?_eq_none]
      intro f member
      rw [show (str "Transfer-Encoding").map tolower = str "transfer-encoding" by decide]
      rcases List.mem_cons.mp member with rfl | given
      · decide
      · simpa using (not_or.mp (mt List.mem_pair.mpr (r.plain f given))).1
    have split : r.allFields = (serverField :: r.fields) ++ [encodingField] := rfl
    rw [split, List.find?_append, others]
    rfl
  have kept : hm.headers = parsedFields r.allFields := rfl
  obtain ⟨v, header, same⟩ := getHttpHeader_value (str "Transfer-Encoding") (str "chunked") kept
    (forall_mem_of_all (by decide)) found
  have plain : mgGetHttpHeader hm (str "Sec-WebSocket-Accept") = none := by
    refine getHttpHeader_none _ kept (forall_mem_of_all (by decide)) ?_
    intro f member
    rw [show (str "Sec-WebSocket-Accept").map tolower = str "sec-websocket-accept" by decide]
    simp only [allFields, List.mem_cons, List.mem_append, List.not_mem_nil, or_false] at member
    rcases member with rfl | given | rfl
    · decide
    · exact (not_or.mp (mt List.mem_pair.mpr (r.plain f given))).2
    · decide
  refine ⟨⟨r.text, hm, fun rest small => ?_, fun p rest => headLenFrom_in_head r.statusLine_isLine _,
    r.length_text, ?_, plain, messageLen⟩, rfl, code⟩
  · have length : headLenFrom 0 (r.text ++ rest) = r.text.length :=
      headLenFrom_head r.statusLine_isLine r.allFields rest
    have positive : 0 < r.text.length := by
      simp [text, headText, crlf]
    rw [mgParseHttp, mgHttpGetRequestLen_all small, length]
    simp only [Int.toNat_natCast, List.take_left, begins, parsed, Bool.false_eq_true, if_false, read]
    rw [if_neg (by omega), if_neg (by omega)]
    simp [MgHttpMessage.withoutBody]
  · rw [MgHttpMessage.isChunked, header, Option.any_some, decide_eq_true_iff, same]
    rfl

end ReplyHead

/-- What a client makes of an answer. -/
def Trigger.reply (t : Trigger) : Option (Int × Bytes) :=
  if t.hm.bodyLen ≤ t.body.length then some (t.hm.respCode, t.body.take t.hm.bodyLen) else none

section Reply

theorem bytes_chunks (chunks : List Bytes) :
    (chunks.map Sent.chunk).flatMap Sent.bytes = chunkBytes (chunks.map .ofData) := by
  simp only [chunkBytes, List.flatMap_map, Chunk.bytes_ofData]

theorem chunkData_ofData (chunks : List Bytes) : chunkData (chunks.map .ofData) = chunks.flatten := by
  rw [chunkData, List.flatMap_map]
  exact List.flatMap_id

theorem takeWhile_split (chunks : List Bytes) (ended : [] ∈ chunks) :
    ∃ later, chunks = chunks.takeWhile (· ≠ []) ++ [] :: later := by
  induction chunks with
  | nil => contradiction
  | cons chunk chunks ih =>
    by_cases empty : chunk = []
    · exact ⟨chunks, by simp [empty]⟩
    · obtain ⟨later, split⟩ := ih ((List.mem_cons.mp ended).resolve_left (Ne.symm empty))
      exact ⟨later, by rw [List.takeWhile_cons_of_pos (by simpa using empty), List.cons_append, ← split]⟩

theorem destroy_chunks (code : Int) (headers : Headers) (ops : List StreamOp) :
    ∃ res, ∃ chunks : List Bytes,
      ((Response.create []).header code headers).bind (fun res => res.stream ops) = .done res ∧
      res.destroy = .head code (extraHeaders headers) :: (chunks ++ [[]]).map .chunk ∧
      chunks.flatten = ops.flatMap StreamOp.bytes := by
  let opened : Response :=
    { sbuf := { ChunkedHTTPResponseBuf.create [] with nc := mgSendHead [] code (extraHeaders headers) }
      headerSent := true }
  obtain ⟨b, chunks, done, carries⟩ := opened.sbuf.applyAll_carries ops
  refine ⟨{ opened with sbuf := b }, chunks ++ [b.pending], ?_, ?_, ?_⟩
  · have first : (Response.create []).header code headers = .done opened := rfl
    rw [first, Imperative.Outcome.done_bind, Response.stream, if_pos rfl, done]
    rfl
  · have sent := carries.sent
    rw [Response.destroy, if_pos rfl, mgSendHttpChunk]
    simp only [ChunkedHTTPResponseBuf.sync_nc, sent]
    simp [opened, mgSendHead]
  · have kept := carries.kept
    rw [List.flatten_append, List.flatten_singleton, kept]
    rfl

/-- The head and the chunks up to the first empty one. -/
def ReplyHead.message (r : ReplyHead) (chunks : List Bytes) : Bytes :=
  (Sent.head r.code (extraHeaders r.headers) ::
    (chunks.takeWhile (· ≠ []) ++ [[]]).map .chunk).flatMap Sent.bytes

/-- An answer, read back in any pieces: the status that the handler gave, and what it wrote, up to
the first flush that found nothing to send. -/
theorem reply_read_back (r : ReplyHead) (ops : List StreamOp) :
    ∃ res, ∃ chunks : List Bytes, ∃ later,
      ((Response.create []).header r.code r.headers).bind (fun res => res.stream ops) = .done res ∧
      res.destroy = .head r.code (extraHeaders r.headers) :: (chunks ++ [[]]).map .chunk ∧
      chunks.flatten = ops.flatMap StreamOp.bytes ∧
      res.destroy.flatMap Sent.bytes = r.message chunks ++ later ∧
      ∀ reads read lack surplus, lack ≠ [] → reads.flatten ++ lack = r.message chunks →
        reads.flatten ++ read = r.message chunks ++ surplus →
        (r.message chunks ++ surplus).length < 2147483648 →
        ∃ nc, Run.run (receiveAs false Trigger.reply) {} (reads ++ [read]) =
          some (nc, List.replicate reads.length none ++
            [some ((r.code : Int), (chunks.takeWhile (· ≠ [])).flatten)]) := by
  obtain ⟨res, chunks, done, sent, written⟩ := destroy_chunks r.code r.headers ops
  obtain ⟨c, text, code⟩ := r.chunkedHead
  obtain ⟨later, split⟩ := takeWhile_split (chunks ++ [[]]) (by simp)
  have taken : (chunks ++ [[]]).takeWhile (· ≠ []) = chunks.takeWhile (· ≠ []) := by
    exact takeWhile_append_of_head (by simp) chunks
  rw [taken] at split
  have nonempty : ∀ chunk ∈ (chunks.takeWhile (· ≠ [])).map Chunk.ofData, chunk.data ≠ [] := by
    intro chunk member
    obtain ⟨data, taken, rfl⟩ := List.mem_map.mp member
    simpa [Chunk.ofData] using List.mem_takeWhile_imp taken
  have message : r.message chunks =
      c.bytes ((chunks.takeWhile (· ≠ [])).map .ofData) (.ofData []) := by
    rw [ReplyHead.message, List.flatMap_cons, bytes_chunks, r.head_bytes, ChunkedHead.bytes, text]
    simp [chunkBytes]
  refine ⟨res, chunks, chunkBytes (later.map .ofData), done, sent, written, ?_, ?_⟩
  · rw [sent, split, message, List.flatMap_cons, bytes_chunks, r.head_bytes, ChunkedHead.bytes, text]
    simp [chunkBytes]
  · rw [message]
    intro reads read lack surplus unfinished before all bounded
    have data := chunkData_ofData (chunks.takeWhile (· ≠ []))
    refine ⟨_, c.run_chunked Trigger.reply nonempty rfl unfinished before all bounded ?_⟩
    rw [data]
    have within : (c.complete (chunks.takeWhile (· ≠ [])).flatten surplus).bodyLen ≤
        ((chunks.takeWhile (· ≠ [])).flatten ++ surplus).length := by
      rw [List.length_append]
      exact Nat.le_add_right _ _
    rw [Trigger.reply, if_pos within]
    simp [ChunkedHead.complete, code]

def createReply : ReplyHead where
  code := 200
  fields := [{
    name := str "Content-Type"
    value := str "text/plain"
    named := by decide
    name_visible := forall_mem_of_all (by decide)
    valued := by decide
    value_text := forall_mem_of_all (by decide)
    value_head := by rintro ch ⟨⟩; decide
    value_last := by rintro ch ⟨⟩; decide }]
  status := by decide
  few := by decide
  undeclared := by decide
  plain := by decide
  short := by decide

/-- The answer to `create`, in two reads: the destructor finds nothing to send, and the last chunk
is behind the end of the message. -/
theorem reply_read_back_create :
    ∃ res nc, ((Response.create []).header 200 [(str "Content-Type", str "text/plain")]).bind
        (fun res => res.stream (.write (str "a4S0") :: endl)) = .done res ∧
      Run.run (receiveAs false Trigger.reply) {}
        [(res.destroy.flatMap Sent.bytes).take 100, (res.destroy.flatMap Sent.bytes).drop 100] =
          some (nc, [none, some (200, str "a4S0" ++ [10])]) := by
  obtain ⟨res, chunks, later, done, sent, _, wire, reads⟩ :=
    reply_read_back createReply (.write (str "a4S0") :: endl)
  have evaluated : (((Response.create []).header 200 createReply.headers).bind
      (fun res => res.stream (.write (str "a4S0") :: endl))).map Response.destroy =
        .done [.head 200 (str "Content-Type: text/plain"), .chunk (str "a4S0" ++ [10]), .chunk [],
          .chunk []] := rfl
  have replied : res.destroy = [.head 200 (str "Content-Type: text/plain"),
      .chunk (str "a4S0" ++ [10]), .chunk [], .chunk []] := by
    have same := (congrArg (Imperative.Outcome.map Response.destroy) done).symm.trans evaluated
    exact Imperative.Outcome.done.inj same
  have written : chunks = [str "a4S0" ++ [10], []] := by
    have same := (List.cons.inj (replied.symm.trans sent)).2
    have chunked : chunks ++ [[]] = [str "a4S0" ++ [10], []] ++ [[]] :=
      List.map_injective_iff.mpr (fun _ _ => Sent.chunk.inj) same.symm
    exact List.append_cancel_right chunked
  have bounds : 100 < (createReply.message chunks).length ∧
      (res.destroy.flatMap Sent.bytes).length < 2147483648 := by
    rw [written, replied]
    decide
  have before : [(res.destroy.flatMap Sent.bytes).take 100].flatten ++
      (createReply.message chunks).drop 100 = createReply.message chunks := by
    rw [wire, List.flatten_singleton, List.take_append_of_le_length bounds.1.le, List.take_append_drop]
  obtain ⟨nc, ran⟩ := reads [_] ((res.destroy.flatMap Sent.bytes).drop 100) _ later
    (List.drop_eq_nil_iff.not.mpr (by omega)) before
    (by rw [List.flatten_singleton, List.take_append_drop, wire]) (wire ▸ bounds.2)
  refine ⟨res, nc, done, ran.trans ?_⟩
  rw [written]
  rfl

end Reply

end HttpAudioServer

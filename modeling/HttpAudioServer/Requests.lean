import HttpAudioServer.Library.Pieces
import HttpAudioServer.MessageHeads

/-! Requests on their way to the server: the bytes that a client writes, the reads in which they
come in, and what the event handler is called with. -/
namespace HttpAudioServer

def IsWord (word : Bytes) : Prop := word ≠ [] ∧ ∀ ch ∈ word, isVisible ch = true

/-- What a client writes before the body. -/
structure RequestHead where
  method : Bytes
  target : Bytes
  proto : Bytes
  fields : List Field
  is_method : IsWord method
  is_target : IsWord target
  is_proto : IsWord proto
  few : fields.length < 39
  short : (lines ((method ++ str " " ++ target ++ str " " ++ proto) ::
    fields.map Field.line)).length ≤ 8190

namespace RequestHead

variable (r : RequestHead)

def requestLine : Bytes := r.method ++ str " " ++ r.target ++ str " " ++ r.proto

def text : Bytes := headText r.requestLine r.fields

/-- The query is no part of the uri. -/
def uri : Bytes := r.target.takeWhile (· ≠ 63)

def HasBody : Prop := r.method.map tolower ∈ [str "put", str "post"]

instance : Decidable r.HasBody := inferInstanceAs (Decidable (_ ∈ _))

def lengths : Nat × Nat :=
  let bodyLen := ((declared r.fields).map toSize).getD sizeMax
  let messageLen := ((declared r.fields).map fun n => toSize (r.text.length + toSize n)).getD sizeMax
  if bodyLen = sizeMax ∧ ¬ r.HasBody then (0, r.text.length) else (bodyLen, messageLen)

/-- The body is not encoded, and nothing else than HTTP is asked for. -/
def Plain : Prop :=
  ∀ f ∈ r.fields, f.name.map tolower ∉ [str "transfer-encoding", str "sec-websocket-key"]

structure Read (r : RequestHead) (hm : MgHttpMessage) : Prop where
  method : hm.method.text = r.method
  uri : hm.uri.text = r.uri
  bodyLen : hm.bodyLen = r.lengths.1
  messageLen : hm.messageLen = r.lengths.2
  headers : hm.headers = parsedFields r.fields

end RequestHead

/-- A request whose body has the length that is declared, or that has none. -/
structure ClientRequest extends RequestHead where
  body : Bytes
  counted : declared fields = some (body.length : Int) ∨
    declared fields = none ∧ body = [] ∧ ¬ toRequestHead.HasBody
  plain : toRequestHead.Plain

def ClientRequest.bytes (r : ClientRequest) : Bytes := r.text ++ r.body

def ClientRequest.message (r : ClientRequest) : HttpMessage := ⟨r.method, r.uri, r.body⟩

section Parse

theorem IsWord.inside {word : Bytes} (isWord : IsWord word) :
    ∀ ch ∈ word, ¬ isDelim (str " ") ch := by
  intro ch member
  obtain ⟨text, blank⟩ := isVisible_iff.mp (isWord.2 ch member)
  have zero := ne_zero_of_isText text
  simp [isDelim, show str " " = [32] by decide, blank, zero]

theorem IsWord.isLine {word : Bytes} (isWord : IsWord word) : IsLine word :=
  ⟨isWord.1, fun ch member => (isVisible_iff.mp (isWord.2 ch member)).1⟩

theorem IsWord.head_inside {word : Bytes} (isWord : IsWord word) (rest : Bytes) :
    ∀ ch ∈ (word ++ rest).head?, ¬ isDelim (str " ") ch := by
  obtain ⟨ch, word', rfl⟩ := List.exists_cons_of_ne_nil isWord.1
  rintro other ⟨⟩
  exact isWord.inside ch List.mem_cons_self

theorem IsWord.mgSkip {word : Bytes} (isWord : IsWord word) (rest : Bytes)
    (beyond : ∀ ch ∈ rest.head?, ¬ isDelim (str " ") ch) :
    mgSkip (str " ") (word ++ str " " ++ rest) = (⟨word ++ str " " ++ rest, word.length⟩, rest) :=
  mgSkip_token _ rest isWord.inside (by decide) (forall_mem_of_all (by decide)) beyond

namespace RequestHead

variable (r : RequestHead)

theorem requestLine_isLine : IsLine r.requestLine := by
  refine ⟨by simp [requestLine, r.is_method.1], ?_⟩
  intro ch member
  have blank : ∀ ch ∈ str " ", isText ch = true := forall_mem_of_all (by decide)
  simp only [requestLine, List.mem_append] at member
  rcases member with (((own | own) | own) | own) | own
  · exact r.is_method.isLine.2 ch own
  · exact blank ch own
  · exact r.is_target.isLine.2 ch own
  · exact blank ch own
  · exact r.is_proto.isLine.2 ch own

theorem length_text : r.text.length ≤ 8192 := by
  have short := r.short
  simp only [text, headText, requestLine, List.length_append, show crlf.length = 2 from rfl] at short ⊢
  omega

theorem text_ne_nil : r.text ≠ [] := by
  simp [text, headText, crlf]

end RequestHead

theorem splitQuery_text (hm : MgHttpMessage) :
    ∃ uri queryString, hm.splitQuery = { hm with uri := uri, queryString := queryString } ∧
      uri.text = hm.uri.text.takeWhile (· ≠ 63) := by
  unfold MgHttpMessage.splitQuery
  obtain ⟨rest, split⟩ := List.takeWhile_prefix (l := hm.uri.text) fun ch => decide (ch ≠ 63)
  by_cases query : (hm.uri.text.takeWhile fun ch => decide (ch ≠ 63)).length < hm.uri.len
  · refine ⟨_, _, if_pos query, ?_⟩
    have within : (hm.uri.text.takeWhile fun ch => decide (ch ≠ 63)).length ≤ hm.uri.len :=
      Nat.le_of_lt query
    rw [MgStr.text, ← Nat.min_eq_left within, ← List.take_take, ← MgStr.text]
    have taken : (_ ++ rest).take (hm.uri.text.takeWhile fun ch => decide (ch ≠ 63)).length = _ :=
      List.take_left
    rwa [split] at taken
  · refine ⟨hm.uri, hm.queryString, if_neg query, ?_⟩
    have length := congrArg List.length split
    have within : hm.uri.text.length ≤ hm.uri.len := List.length_take_le _ _
    rw [List.length_append] at length
    have nothing : rest = [] := by
      rw [← List.length_eq_zero_iff]
      omega
    rw [nothing, List.append_nil] at split
    exact split.symm

namespace RequestHead

variable (r : RequestHead)

theorem parseRequestLine_text :
    ∃ hm, parseRequestLine r.text = some (hm, fieldsText r.fields) ∧
      hm.method = ⟨r.text, r.method.length⟩ ∧ hm.uri.text = r.uri ∧ hm.headers = [] ∧
      hm.bodyLen = sizeMax ∧ hm.messageLen = sizeMax := by
  obtain ⟨ds, some_delims, between, split, beyond⟩ := fieldsText_skipped r.fields
  have proto := mgSkip_token ds _ (text_inside r.is_proto.isLine.2) some_delims between beyond
  have target := r.is_target.mgSkip (r.proto ++ ds ++ fieldsText r.fields) (by
    rw [List.append_assoc]
    exact r.is_proto.head_inside _)
  have method := r.is_method.mgSkip
    (r.target ++ str " " ++ (r.proto ++ ds ++ fieldsText r.fields)) (by
      rw [List.append_assoc]
      exact r.is_target.head_inside _)
  have whole : r.text = r.method ++ str " " ++
      (r.target ++ str " " ++ (r.proto ++ ds ++ fieldsText r.fields)) := by
    rw [List.append_assoc r.proto, ← split]
    simp [text, headText, requestLine, lines]
  have later : 0 < r.method.length ∧ 0 < r.target.length :=
    ⟨List.length_pos_iff.mpr r.is_method.1, List.length_pos_iff.mpr r.is_target.1⟩
  let hm : MgHttpMessage := {
    method := ⟨r.text, r.method.length⟩
    uri := ⟨r.target ++ str " " ++ (r.proto ++ ds ++ fieldsText r.fields), r.target.length⟩
    proto := ⟨r.proto ++ ds ++ fieldsText r.fields, r.proto.length⟩ }
  have order : ¬ (hm.method.p.length ≤ hm.uri.p.length ∨ hm.uri.p.length ≤ hm.proto.p.length) := by
    simp only [hm, whole, List.length_append]
    omega
  have parsed : parseRequestLine r.text = some (hm.splitQuery, fieldsText r.fields) := by
    rw [whole, parseRequestLine, method]
    simp only [target, proto]
    rw [← whole, if_neg order]
  obtain ⟨path, queryString, same, text⟩ := splitQuery_text hm
  refine ⟨_, parsed, ?_, ?_, ?_, ?_, ?_⟩
  · rw [same]
  · rw [same]
    change path.text = r.uri
    rw [text, RequestHead.uri]
    simp [hm, MgStr.text]
  · rw [same]
  · rw [same]
  · rw [same]

/-- Only the head is parsed, whatever comes after it. -/
theorem mgParseHttp_text :
    ∃ hm, r.Read hm ∧ ∀ rest, (r.text ++ rest).length < 2147483648 →
      mgParseHttp true (r.text ++ rest) (wrapInt (r.text ++ rest).length) =
        .head r.text.length hm := by
  obtain ⟨line, parsed, method, uri, headers, bodyLen, messageLen⟩ := r.parseRequestLine_text
  have positive : 0 < r.text.length := List.length_pos_iff.mpr r.text_ne_nil
  have begins : r.text.dropWhile isSpace = r.text := by
    obtain ⟨ch, word, same⟩ := List.exists_cons_of_ne_nil r.is_method.1
    have visible := isVisible_iff.mp (r.is_method.2 ch (by rw [same]; exact List.mem_cons_self))
    have solid := not_isSpace_of_isText visible.1 visible.2
    have first : r.text = ch :: r.text.tail := by
      simp [text, headText, requestLine, lines, same]
    rw [first]
    exact List.dropWhile_cons_of_neg (by simp [solid])
  have whole : ∃ rest, r.text = r.method ++ rest := by
    simp [text, headText, requestLine, lines]
  obtain ⟨after_method, split⟩ := whole
  let read := (mgHttpParseHeaders r.text.length 39 (fieldsText r.fields) line).withoutBody true
    r.text.length
  refine ⟨read, ?_, fun rest small => ?_⟩
  · have parsedHeaders := mgHttpParseHeaders_fields r.text.length r.few line
    rw [foldl_addHeader, headers, List.nil_append, bodyLen, messageLen] at parsedHeaders
    have method_text : line.method.text = r.method := by
      rw [method, MgStr.text, split, List.take_left]
    have others : mgVcasecmp line.method (str "PUT") ≠ 0 ∧
        mgVcasecmp line.method (str "POST") ≠ 0 ↔ ¬ r.HasBody := by
      rw [method, split, ne_eq, ne_eq, mgVcasecmp_eq_zero (str "PUT") (forall_mem_of_all (by decide)),
        mgVcasecmp_eq_zero (str "POST") (forall_mem_of_all (by decide)), show (str "PUT").map tolower = str "put" by decide,
        show (str "POST").map tolower = str "post" by decide, HasBody, List.mem_pair, not_or]
    have whole_read : read = MgHttpMessage.withoutBody true r.text.length _ := rfl
    rw [parsedHeaders] at whole_read
    by_cases without : ((declared r.fields).map toSize).getD sizeMax = sizeMax ∧ ¬ r.HasBody
    · have lengths : r.lengths = (0, r.text.length) := if_pos without
      rw [MgHttpMessage.withoutBody, if_pos ⟨without.1, rfl, others.mpr without.2⟩] at whole_read
      rw [whole_read]
      exact ⟨method_text, uri, by rw [lengths], by rw [lengths], rfl⟩
    · have lengths : r.lengths = _ := if_neg without
      have with_body : ¬ (((declared r.fields).map toSize).getD sizeMax = sizeMax ∧ true = true ∧
          mgVcasecmp line.method (str "PUT") ≠ 0 ∧ mgVcasecmp line.method (str "POST") ≠ 0) := by
        rintro ⟨unlimited, _, other⟩
        exact without ⟨unlimited, others.mp other⟩
      rw [MgHttpMessage.withoutBody, if_neg with_body] at whole_read
      rw [whole_read]
      exact ⟨method_text, uri, by rw [lengths], by rw [lengths], rfl⟩
  · have length : headLenFrom 0 (r.text ++ rest) = r.text.length :=
      headLenFrom_head r.requestLine_isLine r.fields rest
    rw [mgParseHttp, mgHttpGetRequestLen_all small, length]
    simp only [Int.toNat_natCast, List.take_left, begins, parsed]
    rw [if_neg (by omega), if_neg (by omega)]
    rfl

end RequestHead

end Parse

/-- A read, up to the call of the event handler, of which `view` is what is looked at. -/
def receiveAs {μ : Type} (isReq : Bool) (view : Trigger → Option μ) (nc : MgConnection)
    (buf : Bytes) : Option (MgConnection × Option μ) :=
  match mgRecv isReq nc buf with
  | none => none
  | some (nc, none) => some (nc, none)
  | some (nc, some t) => (view t).map fun m => (nc, some m)

def mgReceive : MgConnection → Bytes → Option (MgConnection × Option HttpMessage) :=
  receiveAs true Trigger.message

/-- There is nothing on a connection but the bytes that have come in. -/
def Holds (past : Bytes) (nc : MgConnection) : Prop := nc = { recvMbuf := past }

/-- The length of the buffer is an `int` also when the bytes have come in. -/
def FitsInt (nc : MgConnection) (buf : Bytes) : Prop :=
  nc.recvMbuf.length + buf.length < 2147483648

instance (nc : MgConnection) (buf : Bytes) : Decidable (FitsInt nc buf) :=
  inferInstanceAs (Decidable (_ < _))

section Receive

namespace RequestHead

variable {r : RequestHead} {hm : MgHttpMessage}

theorem Read.not_chunked (read : r.Read hm) (plain : r.Plain) : hm.isChunked = false := by
  have nothing := getHttpHeader_none (str "Transfer-Encoding") read.headers
    (forall_mem_of_all (by decide)) (by
    intro f member
    have other := plain f member
    rw [show (str "Transfer-Encoding").map tolower = str "transfer-encoding" by decide]
    exact (not_or.mp (mt List.mem_pair.mpr other)).1)
  rw [MgHttpMessage.isChunked, nothing]
  rfl

theorem Read.not_websocket (read : r.Read hm) (plain : r.Plain) :
    mgGetHttpHeader hm (str "Sec-WebSocket-Key") = none := by
  refine getHttpHeader_none _ read.headers (forall_mem_of_all (by decide)) ?_
  intro f member
  have other := plain f member
  rw [show (str "Sec-WebSocket-Key").map tolower = str "sec-websocket-key" by decide]
  exact (not_or.mp (mt List.mem_pair.mpr other)).2

theorem length_in_text {p rest : Bytes} (part : p ++ rest = r.text) (unfinished : rest ≠ []) :
    p.length < 8192 := by
  have longer := List.length_pos_iff.mpr unfinished
  have length := congrArg List.length part
  have short := r.length_text
  rw [List.length_append] at length
  omega

theorem mgParseHttp_in_text {p rest : Bytes} (part : p ++ rest = r.text) (unfinished : rest ≠ []) :
    mgParseHttp true p (wrapInt p.length) = .unfinished := by
  have short := length_in_text part unfinished
  have zero := headLenFrom_in_head r.requestLine_isLine r.fields part unfinished
  rw [mgParseHttp, mgHttpGetRequestLen_all (by omega), zero]
  rfl

theorem mgHttpHandler_in_text {p rest : Bytes} (part : p ++ rest = r.text) (unfinished : rest ≠ []) :
    mgHttpHandler true { recvMbuf := p } = some ({ recvMbuf := p }, none) := by
  have patient : ¬ 8192 ≤ p.length := Nat.not_le.mpr (length_in_text part unfinished)
  simp only [mgHttpHandler, mgParseHttp_in_text part unfinished, if_neg patient]

/-- After the head all that matters is the length of the message. -/
theorem mgHttpHandler_text (plain : r.Plain) :
    ∃ hm, r.Read hm ∧ ∀ b, (r.text ++ b).length < 2147483648 →
      mgHttpHandler true { recvMbuf := r.text ++ b } =
      if r.lengths.2 ≤ (r.text ++ b).length then
        some ({ recvMbuf := (r.text ++ b).drop r.lengths.2 }, some ⟨hm, b⟩)
      else some ({ recvMbuf := r.text ++ b }, none) := by
  obtain ⟨hm, read, parsed⟩ := r.mgParseHttp_text
  refine ⟨hm, read, fun b small => ?_⟩
  simp only [mgHttpHandler, parsed b small, read.not_chunked plain, Bool.false_eq_true, if_false,
    Option.map_some, if_true, read.not_websocket plain, Option.isSome_none, List.drop_left,
    read.messageLen]
  split <;> rfl

theorem waits (plain : r.Plain) {b : Bytes} (within : (r.text ++ b).length ≤ r.lengths.2) :
    Pieces.Waits mgReceive Holds 2147483648 (r.text ++ b) := by
  obtain ⟨hm, _, handled⟩ := mgHttpHandler_text plain
  rintro past piece rest nc split unfinished small rfl
  refine ⟨{ recvMbuf := past ++ piece }, ?_, rfl⟩
  have longer := List.length_pos_iff.mpr unfinished
  have length := congrArg List.length split
  rw [List.length_append] at length
  have quiet : mgHttpHandler true { recvMbuf := past ++ piece } =
      some ({ recvMbuf := past ++ piece }, none) := by
    have from_left : r.text <+: past ++ piece ++ rest := ⟨b, split.symm⟩
    by_cases complete : r.text.length ≤ (past ++ piece).length
    · obtain ⟨part, came⟩ := List.prefix_of_prefix_length_le from_left (List.prefix_append _ _)
        complete
      rw [← came, handled part (by rwa [came]), if_neg]
      rw [came]
      omega
    · obtain ⟨more, part⟩ := List.prefix_of_prefix_length_le (List.prefix_append _ rest) from_left
        (Nat.le_of_not_le complete)
      refine mgHttpHandler_in_text part ?_
      rintro rfl
      rw [List.append_nil] at part
      exact complete (by rw [part])
  rw [mgReceive, receiveAs, mgRecv]
  simp [quiet]

theorem mgClose_in_text {p rest : Bytes} (part : p ++ rest = r.text) (unfinished : rest ≠ []) :
    mgClose true { recvMbuf := p } = none := by
  simp [mgClose, mgParseHttp_in_text part unfinished]

theorem mgClose_text (r : RequestHead) {b : Bytes} (small : (r.text ++ b).length < 2147483648) :
    (mgClose true { recvMbuf := r.text ++ b }).bind Trigger.message = some ⟨r.method, r.uri, b⟩ := by
  obtain ⟨hm, read, parsed⟩ := r.mgParseHttp_text
  simp only [mgClose, parsed b small, Bool.false_eq_true, if_false, List.drop_left, Option.bind_some,
    Trigger.message, Nat.le_refl, if_true, List.take_length, read.method, read.uri]

end RequestHead

namespace ClientRequest

theorem lengths_eq (r : ClientRequest) :
    r.lengths = (r.body.length, r.text.length + r.body.length) := by
  have short := r.length_text
  rcases r.counted with counted | ⟨uncounted, empty, without⟩
  · have bound := (declared_bounds counted).2
    have exact_body : toSize r.body.length = r.body.length := by
      unfold toSize
      omega
    have exact_message : toSize (r.text.length + r.body.length) = r.text.length + r.body.length := by
      unfold toSize
      omega
    have finite : r.body.length ≠ sizeMax := by
      rw [show sizeMax = 18446744073709551615 from rfl]
      omega
    simp only [RequestHead.lengths, counted, Option.map_some, Option.getD_some, exact_body,
      exact_message, finite, false_and, if_false]
  · simp [RequestHead.lengths, uncounted, without, empty]

theorem takes (r : ClientRequest) :
    Pieces.Takes mgReceive Holds 2147483648 r.bytes r.message Holds where
  more := RequestHead.waits r.plain (by rw [r.lengths_eq, List.length_append])
  last past piece surplus nc split small held := by
    subst held
    obtain ⟨hm, read, handled⟩ := RequestHead.mgHttpHandler_text r.plain
    refine ⟨{ recvMbuf := surplus }, ?_, rfl⟩
    have whole : past ++ piece = r.text ++ (r.body ++ surplus) := by
      rw [split, bytes, List.append_assoc]
    have complete : r.lengths.2 ≤ (r.text ++ (r.body ++ surplus)).length := by
      rw [r.lengths_eq, List.length_append, List.length_append]
      omega
    have removed : (r.text ++ (r.body ++ surplus)).drop r.lengths.2 = surplus := by
      rw [r.lengths_eq, ← List.append_assoc, ← List.length_append, List.drop_left]
    have message : (⟨hm, r.body ++ surplus⟩ : Trigger).message = some r.message := by
      have inside : hm.bodyLen ≤ (r.body ++ surplus).length := by
        rw [read.bodyLen, r.lengths_eq, List.length_append]
        exact Nat.le_add_right _ _
      rw [Trigger.message, if_pos inside, read.method, read.uri, read.bodyLen, r.lengths_eq,
        List.take_left]
      rfl
    have taken : mgHttpHandler true { recvMbuf := past ++ piece } =
        some ({ recvMbuf := surplus }, some ⟨hm, r.body ++ surplus⟩) := by
      rw [whole, handled _ (by rwa [← whole]), if_pos complete, removed]
    rw [mgReceive, receiveAs, mgRecv]
    simp [taken, message]

end ClientRequest

end Receive

section Samples

def lengthField (value : Bytes) (valued : value ≠ []) (value_text : ∀ ch ∈ value, isText ch = true)
    (value_head : ∀ ch ∈ value.head?, ch ≠ 32 ∧ ch ≠ 58)
    (value_last : ∀ ch ∈ value.getLast?, ch ≠ 32) : Field :=
  ⟨str "Content-Length", value, by decide, forall_mem_of_all (by decide), valued, value_text, value_head, value_last⟩

def twoBytes : Field :=
  lengthField (str "2") (by decide) (forall_mem_of_all (by decide)) (by rintro ch ⟨⟩; decide)
    (by rintro ch ⟨⟩; decide)

def minusTwoBytes : Field :=
  lengthField (str "-2") (by decide) (forall_mem_of_all (by decide)) (by rintro ch ⟨⟩; decide)
    (by rintro ch ⟨⟩; decide)

theorem isWord_http : IsWord (str "HTTP/1.1") := ⟨by decide, forall_mem_of_all (by decide)⟩

theorem no_fields_few : ([] : List Field).length < 39 := by decide

def postHead (fields : List Field) (few : fields.length < 39)
    (short : (lines ((str "POST" ++ str " " ++ str "/stream/create" ++ str " " ++ str "HTTP/1.1") ::
      fields.map Field.line)).length ≤ 8190) : RequestHead :=
  ⟨str "POST", str "/stream/create", str "HTTP/1.1", fields,
    ⟨by decide, forall_mem_of_all (by decide)⟩, ⟨by decide, forall_mem_of_all (by decide)⟩,
    isWord_http, few, short⟩

def postEndless : RequestHead := postHead [] no_fields_few (by decide)

def postMinusTwo : RequestHead := postHead [minusTwoBytes] (by decide) (by decide)

end Samples

section Lengths

variable {r : RequestHead}

theorem toSize_natCast {n : Nat} (small : n < 18446744073709551616) : toSize n = n := by
  unfold toSize
  omega

theorem lengths_declared {n : Int} (given : declared r.fields = some n)
    (limited : n = -1 → r.HasBody) :
    r.lengths = (toSize n, toSize (r.text.length + toSize n)) := by
  have unlimited : ¬ (toSize n = sizeMax ∧ ¬ r.HasBody) := by
    rintro ⟨same, without⟩
    have bounds := declared_bounds given
    refine without (limited ?_)
    rw [show sizeMax = 18446744073709551615 from rfl, toSize] at same
    omega
  simp only [RequestHead.lengths, given, Option.map_some, Option.getD_some, if_neg unlimited]

theorem lengths_undeclared
    (nothing : ¬ ∃ n, declared r.fields = some n ∧ (n = -1 → r.HasBody)) :
    r.lengths = (sizeMax, sizeMax) ∨ r.lengths = (0, r.text.length) := by
  cases given : declared r.fields with
  | none =>
    by_cases hasBody : r.HasBody
    · exact .inl (by simp [RequestHead.lengths, given, hasBody])
    · exact .inr (by simp [RequestHead.lengths, given, hasBody])
  | some n =>
    -- a length of -1 is taken for none
    have minus_one : n = -1 ∧ ¬ r.HasBody := by
      by_contra other
      exact nothing ⟨n, given, fun same => by_contra fun without => other ⟨same, without⟩⟩
    refine .inr (if_pos ⟨?_, minus_one.2⟩)
    rw [given, minus_one.1]
    rfl

/-- The event handler is called with a body that is not in the received bytes exactly if the
length is negative, but not below that of the head. -/
theorem body_outside (plain : r.Plain) (b : Bytes)
    (bounded : (r.text ++ b).length < 2147483648) :
    (∃ nc t, mgHttpHandler true { recvMbuf := r.text ++ b } = some (nc, some t) ∧
      t.message = none) ↔
    ∃ n, declared r.fields = some n ∧ n < 0 ∧ 0 ≤ r.text.length + n ∧ (n = -1 → r.HasBody) := by
  obtain ⟨hm, read, handled⟩ := RequestHead.mgHttpHandler_text plain
  have outside : (⟨hm, b⟩ : Trigger).message = none ↔ b.length < r.lengths.1 := by
    rw [Trigger.message, read.bodyLen, ite_eq_right_iff, ← Nat.not_le]
    exact ⟨fun impossible within => absurd (impossible within) (by simp), fun beyond within =>
      absurd within beyond⟩
  have handled := handled b bounded
  rw [List.length_append] at bounded
  constructor
  · rintro ⟨nc, t, event, nothing⟩
    rw [handled] at event
    split at event
    case isTrue complete =>
      cases event
      have beyond := outside.mp nothing
      rw [List.length_append] at complete
      by_cases given : ∃ n, declared r.fields = some n ∧ (n = -1 → r.HasBody)
      · obtain ⟨n, given, limited⟩ := given
        have bounds := declared_bounds given
        rw [lengths_declared given limited] at complete beyond
        simp only [toSize] at complete beyond
        exact ⟨n, given, by omega, by omega, limited⟩
      · exfalso
        rcases lengths_undeclared given with unlimited | without
        · rw [unlimited, show sizeMax = 18446744073709551615 from rfl] at complete
          omega
        · rw [without] at beyond
          omega
    case isFalse => cases event
  · rintro ⟨n, given, negative, long, limited⟩
    have lengths := lengths_declared given limited
    have bounds := declared_bounds given
    have complete : r.lengths.2 ≤ (r.text ++ b).length := by
      simp only [lengths, List.length_append, toSize]
      omega
    refine ⟨_, _, by rw [handled, if_pos complete], outside.mpr ?_⟩
    simp only [lengths, toSize]
    omega

theorem body_outside_minus_two :
    ∃ nc t, mgHttpHandler true { recvMbuf := postMinusTwo.text ++ [] } = some (nc, some t) ∧
      t.message = none :=
  (body_outside (r := postMinusTwo) (by unfold RequestHead.Plain; decide) [] (by decide)).mpr
    ⟨-2, by decide, by decide, by decide, by decide⟩

theorem mgHttpHandler_large {past : Bytes} (large : 2147483648 ≤ past.length)
    (bounded : past.length < 4294967296) (isReq : Bool) :
    mgHttpHandler isReq { recvMbuf := past } =
      some ({ recvMbuf := past, closeImmediately := true }, none) := by
  have parsed : mgParseHttp isReq past (wrapInt past.length) = .unfinished := by
    rw [mgParseHttp, mgHttpGetRequestLen_large large bounded]
    rfl
  have impatient : 8192 ≤ past.length := by omega
  simp only [mgHttpHandler, parsed, if_pos impatient]

/-- A request whose body may go on without an end, or has less than no bytes, is handed over when
the client closes the connection, and until then all that follows is taken for its body. With a
read that brings the buffer to 2 GiB the connection is to be closed, and nothing is handed over. -/
theorem endless_request (plain : r.Plain)
    (endless : declared r.fields = none ∧ r.HasBody ∨
      ∃ n, declared r.fields = some n ∧ r.text.length + n < 0)
    (reads : List Bytes) (b : Bytes) (all : reads.flatten = r.text ++ b)
    (bounded : (r.text ++ b).length < 2147483648) :
    ∃ nc, Run.run mgReceive {} reads = some (nc, List.replicate reads.length none) ∧
      (mgClose true nc).bind Trigger.message = some ⟨r.method, r.uri, b⟩ ∧
      ∀ buf, 2147483648 ≤ (r.text ++ b ++ buf).length → (r.text ++ b ++ buf).length < 4294967296 →
        ∃ nc', mgReceive nc buf = some (nc', none) ∧ nc'.closeImmediately = true ∧
          mgClose true nc' = none := by
  have never : 9223372036854775808 ≤ r.lengths.2 := by
    rcases endless with ⟨undeclared, hasBody⟩ | ⟨n, given, negative⟩
    · simp [RequestHead.lengths, undeclared, hasBody, show sizeMax = 18446744073709551615 from rfl]
    · have bounds := declared_bounds given
      have positive := List.length_pos_iff.mpr r.text_ne_nil
      rw [lengths_declared given (by omega)]
      simp only [toSize]
      omega
  -- one more byte stands for all that may follow
  have waits : Pieces.Waits mgReceive Holds 2147483648 (r.text ++ (b ++ [0])) :=
    r.waits plain (by
      simp only [List.length_append, List.length_singleton] at bounded ⊢
      omega)
  have start : Holds [] {} := rfl
  obtain ⟨nc, ran, held⟩ := waits.run start (by rw [List.nil_append, all, List.append_assoc])
    (List.cons_ne_nil _ _) (by rwa [List.nil_append, all])
  rw [List.nil_append, all] at held
  subst held
  refine ⟨_, ran, r.mgClose_text bounded, fun buf large below => ?_⟩
  have parsed : mgParseHttp true (r.text ++ b ++ buf) (wrapInt (r.text ++ b ++ buf).length) =
      .unfinished := by
    rw [mgParseHttp, mgHttpGetRequestLen_large large below]
    rfl
  refine ⟨{ recvMbuf := r.text ++ b ++ buf, closeImmediately := true }, ?_, rfl, ?_⟩
  · simp only [mgReceive, receiveAs, mgRecv, Bool.or_self, Bool.false_eq_true, if_false,
      mgHttpHandler_large large below]
  · simp only [mgClose, Bool.false_eq_true, if_false, parsed]

theorem endless_request_post :
    ∃ nc, Run.run mgReceive {} [postEndless.text, str "ab"] = some (nc, [none, none]) ∧
      (mgClose true nc).bind Trigger.message = some ⟨str "POST", str "/stream/create", str "ab"⟩ ∧
      ∀ buf, 2147483648 ≤ (postEndless.text ++ str "ab" ++ buf).length →
        (postEndless.text ++ str "ab" ++ buf).length < 4294967296 →
        ∃ nc', mgReceive nc buf = some (nc', none) ∧ nc'.closeImmediately = true ∧
          mgClose true nc' = none :=
  endless_request (r := postEndless) (by unfold RequestHead.Plain; decide) (.inl ⟨rfl, by decide⟩)
    [postEndless.text, str "ab"] (str "ab") (by simp) (by decide)

end Lengths

end HttpAudioServer

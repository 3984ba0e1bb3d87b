import HttpAudioServer.Library.Family
import HttpAudioServer.Requests
import HttpAudioServer.System

/-! Clients that write one request after the other, and the server that reads what they write as
it comes. -/
namespace HttpAudioServer

def requestBytes (requests : List ClientRequest) : Bytes := requests.flatMap ClientRequest.bytes

def fresh : MgConnection := {}

section Samples

def indexRequest : ClientRequest where
  method := str "GET"
  target := str "/"
  proto := str "HTTP/1.1"
  fields := []
  is_method := ⟨by decide, forall_mem_of_all (by decide)⟩
  is_target := ⟨by decide, forall_mem_of_all (by decide)⟩
  is_proto := isWord_http
  few := no_fields_few
  short := by decide
  body := []
  counted := .inr ⟨rfl, rfl, by decide⟩
  plain := by unfold RequestHead.Plain; decide

def createRequest : ClientRequest where
  toRequestHead := postHead [twoBytes] (by decide) (by decide)
  body := str "ab"
  counted := .inl (by decide)
  plain := by unfold RequestHead.Plain; decide

end Samples

section Connection

variable (requests : List ClientRequest) (reads : List Bytes) (unread : Bytes)

theorem requestBytes_append (earlier later : List ClientRequest) :
    requestBytes (earlier ++ later) = requestBytes earlier ++ requestBytes later :=
  List.flatMap_append

/-- The rule for messages in pieces, for a connection that has some bytes already. -/
theorem reads_taken {requests : List ClientRequest} {reads : List Bytes} {past unread : Bytes}
    (nonempty : ∀ buf ∈ reads, buf ≠ [])
    (fits : Run.Along mgReceive FitsInt { recvMbuf := past } reads)
    (all : past ++ reads.flatten ++ unread = requestBytes requests) :
    ∃ kept events handed left,
      Run.run mgReceive { recvMbuf := past } reads = some ({ recvMbuf := kept }, events) ∧
      requests = handed ++ left ∧ events.reduceOption = handed.map ClientRequest.message ∧
      kept ++ unread = requestBytes left := by
  let messages := requests.map fun r => (r.bytes, r.message)
  have takes : ∀ x ∈ messages, Pieces.Takes mgReceive Holds 2147483648 x.1 x.2 Holds := by
    intro x member
    obtain ⟨r, _, rfl⟩ := List.mem_map.mp member
    exact r.takes
  have held : Holds past { recvMbuf := past } := rfl
  have room : Run.Along mgReceive (Pieces.Fits Holds 2147483648) { recvMbuf := past } reads := by
    refine fits.imp fun nc buf small past held => ?_
    rw [List.length_append]
    rwa [FitsInt, held] at small
  have bytes (rs : List ClientRequest) :
      ((rs.map fun r => (r.bytes, r.message)).map Prod.fst).flatten = requestBytes rs := by
    rw [List.map_map, requestBytes, List.flatMap_def]
    rfl
  obtain ⟨nc, events, handed, left, kept, ran, split, same, rfl, rest⟩ :=
    Pieces.run_reads takes nonempty held room (by rw [all, bytes])
  obtain ⟨handed, left, rfl, rfl, rfl⟩ := List.map_eq_append_iff.mp split
  refine ⟨kept, events, handed, left, ran, rfl, ?_, by rw [rest, bytes]⟩
  rw [same, List.map_map]
  rfl

/-- The same for one read, which completes one request at most. -/
theorem read_taken {requests : List ClientRequest} {past buf unread : Bytes} (nonempty : buf ≠ [])
    (fits : FitsInt { recvMbuf := past } buf)
    (all : past ++ buf ++ unread = requestBytes requests) :
    ∃ kept event handed left,
      mgReceive { recvMbuf := past } buf = some ({ recvMbuf := kept }, event) ∧
      requests = handed ++ left ∧ event.toList = handed.map ClientRequest.message ∧
      past ++ buf = requestBytes handed ++ kept := by
  have room : Run.Along mgReceive FitsInt { recvMbuf := past } [buf] :=
    Run.along_cons fits fun _ _ _ => Run.along_nil _
  have whole : past ++ [buf].flatten ++ unread = requestBytes requests := by
    rwa [List.flatten_singleton]
  obtain ⟨kept, events, handed, left, ran, split, same, rest⟩ :=
    reads_taken (List.forall_mem_singleton.mpr nonempty) room whole
  obtain ⟨nc, event, _, received, ended, rfl⟩ := Run.run_cons_eq_some.mp ran
  cases ended
  refine ⟨kept, event, handed, left, received, split, ?_, ?_⟩
  · rw [← same]
    cases event <;> rfl
  · rw [split, requestBytes_append, ← rest, ← List.append_assoc] at all
    exact List.append_cancel_right all

/-- If no read has bytes of two requests, each of them is handed over, and nothing is left. -/
theorem requests_answered (cuts : List (List Bytes))
    (small : ∀ r ∈ requests, r.bytes.length < 2147483648)
    (cut : List.Forall₂ (fun r pieces => Pieces.Cuts (ClientRequest.bytes r) pieces) requests cuts)
    (nonempty : ∀ buf ∈ cuts.flatten, buf ≠ []) :
    ∃ events, Run.run mgReceive fresh cuts.flatten = some (fresh, events) ∧
      events.reduceOption = requests.map ClientRequest.message := by
  let messages := requests.map fun r => (r.bytes, r.message)
  have takes : ∀ x ∈ messages, Pieces.Takes mgReceive Holds 2147483648 x.1 x.2 Holds := by
    intro x member
    obtain ⟨r, _, rfl⟩ := List.mem_map.mp member
    exact r.takes
  have fits : ∀ x ∈ messages, x.1.length < 2147483648 := by
    intro x member
    obtain ⟨r, given, rfl⟩ := List.mem_map.mp member
    exact small r given
  obtain ⟨nc, events, ran, same, holds⟩ := Pieces.run_messages (s := fresh) takes fits
    (List.forall₂_map_left_iff.mpr cut) nonempty rfl
  refine ⟨events, by rw [ran, show nc = fresh from holds], ?_⟩
  rw [same, List.map_map]
  rfl

theorem requests_answered_two :
    ∃ events, Run.run mgReceive fresh
        [indexRequest.bytes, createRequest.bytes.take 50, createRequest.bytes.drop 50] =
          some (fresh, events) ∧
      events.reduceOption = [indexRequest.message, createRequest.message] :=
  requests_answered [indexRequest, createRequest]
    [[indexRequest.bytes], [createRequest.bytes.take 50, createRequest.bytes.drop 50]] (by decide)
    (.cons ⟨by simp, by simp⟩ (.cons ⟨by simp, by simp⟩ .nil)) (by decide)

end Connection

section Close

variable (r : ClientRequest) (reads : List Bytes) (lost : Bytes)

/-- A client that goes away in the middle of a request: the request is handled all the same, with
the part of the body that has come, if its head has come. -/
theorem request_cut_off (unfinished : lost ≠ []) (all : reads.flatten ++ lost = r.bytes)
    (small : reads.flatten.length < 2147483648) :
    ∃ nc, Run.run mgReceive fresh reads = some (nc, List.replicate reads.length none) ∧
      (mgClose true nc).bind Trigger.message =
        if r.text.length ≤ reads.flatten.length then
          some ⟨r.method, r.uri, reads.flatten.drop r.text.length⟩
        else none := by
  have start : Holds [] fresh := rfl
  obtain ⟨nc, waited, held⟩ := r.takes.more.run start (by rw [List.nil_append, all]) unfinished
    (by rwa [List.nil_append])
  rw [List.nil_append] at held
  subst held
  refine ⟨_, waited, ?_⟩
  have from_left : r.text <+: reads.flatten ++ lost := ⟨r.body, all.symm⟩
  by_cases complete : r.text.length ≤ reads.flatten.length
  · obtain ⟨b, came⟩ := List.prefix_of_prefix_length_le from_left (List.prefix_append _ _) complete
    rw [if_pos complete, ← came, r.mgClose_text (by rwa [came]), List.drop_left]
  · obtain ⟨rest, part⟩ := List.prefix_of_prefix_length_le (List.prefix_append _ lost) from_left
      (Nat.le_of_not_le complete)
    have in_head : rest ≠ [] := by
      rintro rfl
      rw [List.append_nil] at part
      exact complete (by rw [part])
    rw [if_neg complete, RequestHead.mgClose_in_text part in_head, Option.bind_none]

theorem request_cut_off_create :
    ∃ nc, Run.run mgReceive fresh [createRequest.bytes.dropLast] = some (nc, [none]) ∧
      (mgClose true nc).bind Trigger.message =
        if createRequest.text.length ≤ [createRequest.bytes.dropLast].flatten.length then
          some ⟨createRequest.method, createRequest.uri,
            [createRequest.bytes.dropLast].flatten.drop createRequest.text.length⟩
        else none :=
  request_cut_off createRequest [createRequest.bytes.dropLast] (str "b") (by decide) (by decide)
    (by decide)

end Close

section Server

variable {ι : Type} [DecidableEq ι] {c : Codec}

end Server

end HttpAudioServer

import HttpAudioServer.Chunks
import HttpAudioServer.Clocks
import HttpAudioServer.Heads
import HttpAudioServer.Page

/-! How the page finds the end of a stream: an answer has no data segment if nothing has
been written during the call, and that is so exactly if the encoder was finalised before. -/
namespace HttpAudioServer

variable {c : Codec}

theorem Entry.fed_nil {e : Entry} (nothing : e.delivered = []) : e.fed = [] := by
  rw [Entry.delivered, List.flatMap_eq_nil_iff] at nothing
  rw [Entry.fed, List.flatMap_eq_nil_iff]
  intro r member
  rw [nothing r member]
  rfl

namespace Stream

theorem fed_nil {s : Stream c} (nothing : s.delivered = []) : s.fed = [] := by
  rw [Stream.delivered, List.flatMap_eq_nil_iff] at nothing
  rw [Stream.fed, List.flatMap_eq_nil_iff]
  exact fun e member => Entry.fed_nil (nothing e member)

section Call

variable {pcm : Bytes → Rat → Bytes} {media : Media} {l l' : Advance c}

theorem Act.balance (inv : l.stream.Inv pcm) (sizes : WholeSizes pcm l)
    (act : Act media l l') :
    l'.stream.nSamples * 8 + l'.nBytes = l.stream.nSamples * 8 + l.nBytes := by
  cases act with
  | opens => rfl
  | @reads e later d next got encoder out wanted front dec taken left log fed =>
    obtain ⟨got_eq, _⟩ := unreads_reads inv front dec taken left log encoder out
    have first : 8 ∣ (e.unread pcm).length :=
      sizes.unread _ (by rw [unreads_front front]; exact List.mem_cons_self)
    have size : got.length = min l.nBytes (e.unread pcm).length := by
      rw [got_eq, List.length_take]
    have request := sizes.request
    simp only [Advance.read]
    omega
  | pops => rfl

theorem Acts.balance (yields : media.Yields pcm) (inv : l.stream.Inv pcm) (sizes : WholeSizes pcm l)
    (acts : Acts media l l') :
    l'.stream.nSamples * 8 + l'.nBytes = l.stream.nSamples * 8 + l.nBytes := by
  induction acts with
  | refl => rfl
  | tail before act ih =>
    have sizes' := (Acts.heard yields inv sizes before).2
    exact (act.balance (inv.acts yields before) sizes').trans ih

theorem Acts.view_grows (yields : media.Yields pcm) (inv : l.stream.Inv pcm)
    (active : l.stream.encoder.done = false) (acts : Acts media l l') :
    ∃ more, l'.stream.fed = l.stream.fed ++ more ∧
      l'.stream.encoder.view = l.stream.encoder.view.feed l.stream.bitrate more := by
  obtain ⟨more, fed⟩ := Acts.fed_grows yields inv acts
  have still : l'.stream.encoder.done = false := acts.done.trans active
  have whole : (EncoderImpl.create c 48000 2).view.format.nChannels ∣ l.stream.fed.length := by
    rw [inv.samples]
    exact Nat.dvd_mul_left 2 _
  have positive : 0 < (EncoderImpl.create c 48000 2).view.format.frameLength :=
    (create_ready 48000).valid.frameLength_pos
  refine ⟨more, fed, ?_⟩
  rw [(inv.acts yields acts).encoder still, inv.encoder active, acts.bitrate, fed,
    Framer.feed_append _ _ positive whole]

end Call

theorem dumped_written {pcm : Bytes → Rat → Bytes} {s t : Stream c} (inv : s.Inv pcm)
    (inv' : t.Inv pcm) {data more : Bytes}
    (dumped : t.encoder.mkvWriter.dumped = s.encoder.mkvWriter.dumped ++ data)
    (drained : t.encoder.mkvWriter.buf = [])
    (wrote : written t.encoder.calls = written s.encoder.calls ++ more) :
    data = s.encoder.mkvWriter.buf ++ more := by
  have after := inv'.valid.accounted
  rw [drained, List.append_nil, dumped, wrote, ← inv.valid.accounted, List.append_assoc] at after
  exact List.append_cancel_left after

theorem returns_writes {pcm : Bytes → Rat → Bytes} (talks : c.Talks) {s : Stream c} {media : Media}
    {samples : Nat} {l l' : Advance c} (frame : 1920 ≤ samples) (yields : media.Yields pcm)
    (inv : s.Inv pcm) (steady : s.AllSteady pcm) (whole : s.AllWhole pcm)
    (active : s.encoder.done = false) (acts : Acts media (.start samples s) l)
    (stop : wants l = false) (finishes : Finishes l l') :
    l'.stream.encoder.mkvWriter.buf = [] ∧
    ∃ more, more ≠ [] ∧
      written l'.stream.encoder.calls = written s.encoder.calls ++ more := by
  have unread : ∀ u ∈ s.unreads pcm, 8 ∣ u.length :=
    fun u member => leftovers_whole inv steady whole _ (List.mem_map_of_mem member)
  have inv' : l.stream.Inv pcm := Inv.acts yields inv acts
  have still : l.stream.encoder.done = false := acts.done.trans active
  obtain ⟨more, fed, view⟩ := Acts.view_grows yields inv active acts
  obtain ⟨wrote, during, some_frame⟩ := Framer.written_feed s.bitrate s.encoder.view more
  have calls : written l.stream.encoder.calls = written s.encoder.calls ++ wrote :=
    (congrArg (fun f : Framer c => written f.sink.calls) view).trans during
  cases finishes with
  | stays more_entries =>
    have satisfied : l.nBytes = 0 := by
      simp only [wants, Bool.and_eq_false_iff, decide_eq_false_iff_not, Bool.not_eq_false',
        List.isEmpty_iff] at stop
      rcases stop with satisfied | drained
      · omega
      · exact absurd drained more_entries
    have balance := Acts.balance yields inv ⟨by simp only [Advance.start]; omega, unread⟩ acts
    have samples_s := inv.samples
    have samples_l := inv'.samples
    rw [fed, List.length_append] at samples_l
    simp only [Advance.start] at balance samples_l
    have count : 3840 ≤ more.length := by omega
    have some_read : l.stream.delivered ≠ [] := by
      intro nothing
      have empty := fed_nil nothing
      rw [fed, List.append_eq_nil_iff] at empty
      rw [empty.2] at count
      simp at count
    refine ⟨inv'.drained (.inr some_read), wrote, some_frame talks active ?_, calls⟩
    have length : s.encoder.view.format.frameLength = 3840 :=
      congrArg Format.frameLength inv.format
    rw [length, ← List.length_pos_iff, Blocks.length_blocks, List.length_append]
    exact Nat.div_pos (by omega) (by decide)
  | closes drained closed =>
    obtain ⟨last, finalised, some_last⟩ :=
      Framer.written_finalize l.stream.bitrate (f := l.stream.encoder.view) still
    have after := (congrArg (fun f : Framer c => written f.sink.calls) closed.view).trans finalised
    refine ⟨closed.drained still, wrote ++ last, ?_, ?_⟩
    · exact fun nothing => some_last talks (List.append_eq_nil_iff.mp nothing).2
    · rw [← List.append_assoc, ← calls]
      exact after

/-- A request for a frame or more gives data exactly if the encoder was not finalised. -/
theorem data_iff {pcm : Bytes → Rat → Bytes} (talks : c.Talks) {s t : Stream c} {media : Media}
    {samples : Nat} (frame : 1920 ≤ samples) {metadata : List Record} {data : Bytes}
    (yields : media.Yields pcm) (inv : s.Inv pcm) (steady : s.AllSteady pcm) (whole : s.AllWhole pcm)
    (steps : Steps s (.advance media samples) t (.segments metadata data)) :
    data = [] ↔ s.encoder.done = true := by
  have allowed : Op.Yields pcm (.advance media samples) := yields
  have inv_t : t.Inv pcm := inv.steps allowed steps
  have idle := steps.idle
  cases steps with
  | @returns _ _ l l' returned acts stop finishes =>
    have dumped := finishes.dumped acts.dumped
    constructor
    · intro nothing
      by_contra active
      obtain ⟨drained, more, some_more, calls⟩ := returns_writes talks frame yields inv steady whole
        (by simpa using active) acts stop finishes
      have parts := dumped_written inv inv_t dumped drained calls
      rw [nothing] at parts
      exact some_more (List.append_eq_nil_iff.mp parts.symm).2
    · intro closed
      rw [idle closed] at dumped
      exact List.append_cancel_left (dumped.symm.trans (List.append_nil _).symm)

/-- The requests of the page: to append a file, and for five seconds. -/
def Op.Request : Op → Prop
  | .append _ _ => True
  | .advance _ samples => samples = 240000

/-- The call has returned, and its answer fits the size fields. -/
def Reply.Fits (floatText : Rat → Bytes) : Reply → Prop
  | .appended => True
  | .segments metadata data => HttpAudioServer.Fits floatText metadata data
  | .threw _ => False

instance (floatText : Rat → Bytes) : (reply : Reply) → Decidable (reply.Fits floatText)
  | .appended => isTrue trivial
  | .segments metadata data =>
    decidable_of_iff ((smeta floatText metadata).length < 4294967296 ∧ data.length < 4294967296)
      ⟨fun h => ⟨h.1, h.2⟩, fun h => ⟨h.metadata, h.data⟩⟩
  | .threw _ => isFalse id

def Reply.data : Reply → Bytes
  | .segments _ data => data
  | .appended | .threw _ => []

def answer (floatText : Rat → Bytes) (page : Page) : Reply → Option Page
  | .segments metadata data => page.nextChunk (segments floatText metadata data)
  | .appended | .threw _ => some page

def watch (floatText : Rat → Bytes) (replies : List Reply) : Option Page :=
  replies.foldlM (answer floatText) {}

theorem Steps.dumped {s t : Stream c} {op : Op} {reply : Reply} (steps : Steps s op t reply)
    (returns : ∀ e, reply ≠ .threw e) :
    t.encoder.mkvWriter.dumped = s.encoder.mkvWriter.dumped ++ reply.data := by
  cases steps with
  | appends => exact (List.append_nil _).symm
  | returns _ acts _ finishes => exact finishes.dumped acts.dumped
  | throws => exact absurd rfl (returns _)

theorem Steps.drained {s t : Stream c} {media : Media} {samples : Nat} {metadata : List Record}
    {data : Bytes} (steps : Steps s (.advance media samples) t (.segments metadata data))
    (drained : t.decoders = []) : t.encoder.done = true := by
  cases steps with
  | returns _ _ _ finishes =>
    cases finishes with
    | stays more => exact absurd drained more
    | closes _ closed => exact (congrArg Framer.done closed.view).trans (Framer.finalize_done _ _)

structure Watched (floatText : Rat → Bytes) (replies : List Reply) (s : Stream c) : Prop where
  page : ∃ page, watch floatText replies = some page ∧
    page.sourceBuffer = (replies.map Reply.data).filter fun data => !data.isEmpty
  dumped : s.encoder.mkvWriter.dumped = (replies.map Reply.data).flatten

theorem answer_sourceBuffer {floatText : Rat → Bytes} {reply : Reply} (fits : reply.Fits floatText)
    (page : Page) : ∃ page', answer floatText page reply = some page' ∧
      page'.sourceBuffer = page.sourceBuffer ++ [reply.data].filter fun data => !data.isEmpty := by
  cases reply with
  | appended => exact ⟨page, rfl, by simp [Reply.data]⟩
  | threw => exact fits.elim
  | segments metadata data =>
    have next := nextChunk_answer page fits
    by_cases empty : data = []
    · rw [if_pos empty] at next
      exact ⟨_, next, by simp [Reply.data, empty]⟩
    · rw [if_neg empty] at next
      exact ⟨_, next, by simp [Reply.data, empty]⟩

theorem Watched.steps {floatText : Rat → Bytes} {replies : List Reply} {s t : Stream c} {op : Op}
    {reply : Reply} (watched : Watched floatText replies s) (fits : reply.Fits floatText)
    (steps : Steps s op t reply) : Watched floatText (replies ++ [reply]) t := by
  obtain ⟨⟨page, seen, buffer⟩, dumped⟩ := watched
  obtain ⟨page', answer, buffer'⟩ := answer_sourceBuffer fits page
  have returns : ∀ e, reply ≠ .threw e := by
    rintro e rfl
    exact fits
  constructor
  · refine ⟨page', ?_, ?_⟩
    · rw [watch] at seen
      rw [watch, List.foldlM_append, seen]
      simpa using answer
    · rw [buffer', buffer, List.map_append, List.filter_append]
      rfl
  · rw [steps.dumped returns, dumped, List.map_append, List.flatten_append]
    simp

theorem flatten_nonempty (blocks : List Bytes) :
    (blocks.filter fun block => !block.isEmpty).flatten = blocks.flatten := by
  induction blocks with
  | nil => rfl
  | cons block blocks ih =>
    by_cases empty : block = []
    · simp [empty, ih]
    · simp [empty, ih]

/-- The end of a stream, as the page sees it. The answer to a request stops the page exactly
if the encoder was finalised before that request. All data segments that are not empty go
to the source buffer in order, and they are everything that has been written. The request
that drains the playlist finalises the encoder, so the next one is the last. -/
theorem page_stops_iff (c : Codec) (talks : c.Talks) (floatText : Rat → Bytes)
    (pcm : Bytes → Rat → Bytes) (bitrate : Nat) (ops : List Op) (files : WholeFiles pcm ops)
    (requests : ∀ op ∈ ops, op.Request) :
    ∃ t replies, run (create c bitrate) ops = some (t, replies) ∧
      (∀ before media samples after u us v metadata data,
        ops = before ++ .advance media samples :: after →
        run (create c bitrate) before = some (u, us) →
        step u (.advance media samples) = some (v, .segments metadata data) →
        Fits floatText metadata data →
        ∀ page : Page, ∃ page',
          page.nextChunk (segments floatText metadata data) = some page' ∧
          (page'.asking = false ↔ u.encoder.done = true) ∧
          (v.decoders = [] → v.encoder.done = true)) ∧
      ((∀ reply ∈ replies, reply.Fits floatText) → ∃ page,
        watch floatText replies = some page ∧
        page.sourceBuffer = (replies.map Reply.data).filter (fun data => !data.isEmpty) ∧
        (t.encoder.done = true → page.sourceBuffer.flatten = written t.encoder.calls)) := by
  have initial : Watched floatText [] (create c bitrate) :=
    ⟨⟨{}, rfl, rfl⟩, EncoderImpl.create_dumped c 48000 2⟩
  obtain ⟨t, replies, reached, inv, watched⟩ := run_keeps pcm bitrate
    (fun _ replies (s : Stream c) =>
      (∀ reply ∈ replies, reply.Fits floatText) → Watched floatText replies s)
    (fun _ _ => True) (fun _ => initial)
    (fun _ _ _ _ _ reply _ _ watched _ _ steps fits =>
      (watched fun r member => fits r (List.mem_append_left _ member)).steps
        (fits reply (List.mem_append_right _ List.mem_cons_self)) steps)
    ops files.1 (Run.along_of_forall fun _ _ => trivial)
  refine ⟨t, replies, reached, ?_, ?_⟩
  · rintro before media samples after u us v metadata data rfl reached_u stepped fits page
    have files_before : WholeFiles pcm before :=
      ⟨fun op member => files.1 op (List.mem_append_left _ member),
        fun op member => files.2 op (List.mem_append_left _ member)⟩
    have frame : samples = 240000 := requests (.advance media samples) (by simp)
    obtain ⟨u', _, same, inv_u, framed⟩ := run_framed (c := c) bitrate files_before
    cases reached_u.symm.trans same
    have yields : media.Yields pcm := files.1 (.advance media samples) (by simp)
    obtain ⟨v', reply, stepped', steps⟩ := step_spec inv_u.toReady (.advance media samples)
    cases stepped.symm.trans stepped'
    have silent := data_iff talks (by omega) yields inv_u framed.steady framed.whole steps
    have drained := steps.drained
    have next := nextChunk_answer page fits
    by_cases empty : data = []
    · rw [if_pos empty] at next
      exact ⟨_, next, by simp [← silent, empty], drained⟩
    · rw [if_neg empty] at next
      exact ⟨_, next, by simp [← silent, empty], drained⟩
  · intro fits
    obtain ⟨⟨page, seen, buffer⟩, dumped⟩ := watched fits
    refine ⟨page, seen, buffer, fun closed => ?_⟩
    have all := inv.valid.accounted
    rw [inv.drained (.inl closed), List.append_nil] at all
    rw [buffer, flatten_nonempty, ← dumped, all]

/-- The text of the only number in the metadata that is not 0. -/
def minusOne (_ : Rat) : Bytes := str "-1"

def drained : List Op :=
  oneFile ++ [.advance (.ofFiles twoSamples) 240000, .advance (.ofFiles twoSamples) 240000]

theorem page_stops_iff_drained :
    ∃ t replies page, run (create Codec.plain 196000) drained = some (t, replies) ∧
      watch minusOne replies = some page ∧
      page.sourceBuffer.flatten = written t.encoder.calls := by
  have files : WholeFiles twoSamples drained := by
    simp [WholeFiles, drained, oneFile, Op.Yields, Op.Whole, media_yields, twoSamples_whole]
  have requests : ∀ op ∈ drained, op.Request := by simp [drained, oneFile, Op.Request]
  have evaluated : (run (create Codec.plain 196000) drained).map (fun r =>
      (r.1.encoder.done, decide (∀ reply ∈ r.2, reply.Fits minusOne))) = some (true, true) := by
    decide +kernel
  obtain ⟨t, replies, reached, _, whole⟩ := page_stops_iff Codec.plain plain_talks minusOne twoSamples
    196000 drained files requests
  rw [reached, Option.map_some, Option.some.injEq, Prod.mk.injEq, decide_eq_true_eq] at evaluated
  obtain ⟨page, seen, _, all⟩ := whole evaluated.2
  exact ⟨t, replies, page, reached, seen, all evaluated.1⟩

/-- What `advance` has written to the response. -/
def Reply.body (floatText : Rat → Bytes) : Reply → Bytes
  | .segments metadata data => Stream.segments floatText metadata data
  | .appended | .threw _ => []

/-- What the page gets to read of it. -/
def Reply.loaded (floatText : Rat → Bytes) : Reply → Option Bytes
  | .segments metadata data => some (Stream.segments floatText metadata data)
  | .appended | .threw _ => none

/-- The chunks of a body, up to the empty one. A head among them is no chunk. -/
def chunkedBody : List Sent → Option Bytes
  | .chunk [] :: _ => some []
  | .chunk buf :: sent => (chunkedBody sent).map (buf ++ ·)
  | .head _ _ :: _ | [] => none

/-- What a request of the page loads. Without a body `onload` is not called. -/
def loadedBody : List Sent → Option Bytes
  | .head _ _ :: sent => chunkedBody sent
  | .chunk _ :: _ | [] => none

theorem chunkedBody_append {chunks : List Bytes} (present : ∀ chunk ∈ chunks, chunk ≠ [])
    (last : Bytes) :
    chunkedBody ((chunks ++ [last] ++ [[]]).map .chunk) = some (chunks.flatten ++ last) := by
  induction chunks with
  | nil =>
    cases last with
    | nil => rfl
    | cons ch last => simp [chunkedBody]
  | cons chunk chunks ih =>
    obtain ⟨first, others⟩ := List.forall_mem_cons.mp present
    obtain ⟨ch, rest, rfl⟩ := List.exists_cons_of_ne_nil first
    rw [List.cons_append, List.cons_append, List.map_cons, chunkedBody, ih others,
      Option.map_some, List.flatten_cons, List.append_assoc]
    exact List.cons_ne_nil ch rest

theorem chunkedBody_chunked (part : Bytes) :
    chunkedBody ((chunked part ++ [[]]).map .chunk) = some part := by
  have present : ∀ chunk ∈ Blocks.blocks 4097 part, chunk ≠ [] := by
    rintro chunk member rfl
    exact absurd (Blocks.length_of_mem_blocks member) (by decide)
  rw [chunked, chunkedBody_append present, Blocks.flatten_blocks_append_rest (by decide)]

theorem parts_segmentOps (floatText : Rat → Bytes) (metadata : List Record) (data : Bytes) :
    parts [] (segmentOps floatText metadata data) = [segments floatText metadata data] := by
  simp [segmentOps, parts, segments, segment]

/-- On the wire an answer has what `advance` has written if it returns, and no body that can be
loaded if it throws. -/
theorem loadedBody_advance {floatText : Rat → Bytes} {media : Media} {streams : Streams c}
    {requestMap : List (RequestMapEntry (Streams c))} {hm : HttpMessage}
    {descr : RequestMapEntry (Streams c)} {sm : List Bytes} {s : Stream c}
    (found : suitable hm requestMap = some (descr, sm))
    (handler : descr.handler = handleStreamAdvance floatText media)
    (live : streams (sm.getD 1 []) = some s) (ready : s.Ready) :
    ∃ t reply sent, step s (.advance media 240000) = some (t, reply) ∧
      eventHandler requestMap streams [] (.httpRequest hm) =
        .done (Function.update streams (sm.getD 1 []) (some t), sent) ∧
      loadedBody sent = reply.loaded floatText := by
  have ends := advance_acts media 240000 ready
  cases advanced : s.advance media 240000 with
  | done l =>
    have follows : Follows descr.handler ⟨hm.uri, hm.body, sm⟩ streams _ _ :=
      handler ▸ advance_returns floatText live advanced
    let opened : Response :=
      { sbuf := { ChunkedHTTPResponseBuf.create [] with
          nc := mgSendHead [] 200 (extraHeaders [(str "Content-Type", str "audio/webm")]) }
        headerSent := true }
    have head : opened.headerSent = true := rfl
    obtain ⟨res, written, sent⟩ := stream_destroy head rfl
      (segmentOps floatText l.metadata l.osBufData)
    rw [parts_segmentOps, List.flatMap_singleton] at sent
    have responds : Script.respond ⟨[advanceHead, .stream [],
        .stream (segmentOps floatText l.metadata l.osBufData)], none⟩ [] = .done res.destroy := by
      have applied : Script.apply ⟨[advanceHead, .stream [],
          .stream (segmentOps floatText l.metadata l.osBufData)], none⟩ (.create []) =
            (applyCalls opened [.stream (segmentOps floatText l.metadata l.osBufData)]).bind .done :=
        rfl
      simp only [Script.respond, applied, applyCalls, Call.apply, written,
        Imperative.Outcome.done_bind]
    refine ⟨l.stream, .segments l.metadata l.osBufData, res.destroy, ?_, ?_, ?_⟩
    · simp only [step, advanced]
    · rw [eventHandler_respond [] found follows, responds]
      rfl
    · rw [sent]
      exact chunkedBody_chunked _
  | thrown e l =>
    have follows : Follows descr.handler ⟨hm.uri, hm.body, sm⟩ streams _ _ :=
      handler ▸ advance_throws floatText live advanced
    refine ⟨l.stream, .threw e, _, ?_, eventHandler_respond [] found follows, rfl⟩
    simp only [step, advanced]
  | running =>
    rw [advanced] at ends
    exact ends.elim

def recordText (before after : Bytes) (filename : Bytes) : Bytes :=
  before ++ Json.escapeString filename ++ after

def beforeName : Bytes := str "\x7b\"filename\":\""

def afterName (floatText : Rat → Bytes) (start : Rat) (m : Metadata) : Bytes :=
  str "\",\"meta\":" ++ m.toJson.dump floatText ++ str ",\"start\":" ++
    (Json.float start).dump floatText ++ str "\x7d"

theorem dump_record (floatText : Rat → Bytes) (start : Rat) (filename : Bytes) (m : Metadata) :
    (⟨start, filename, m⟩ : Record).toJson.dump floatText =
      recordText beforeName (afterName floatText start m) filename := by
  have opening : beforeName = str "\x7b" ++ str "\"" ++ Json.escapeString (str "filename") ++
      str "\":" ++ str "\"" := by decide
  have second : str "\",\"meta\":" = str "\"" ++ str "," ++ str "\"" ++
      Json.escapeString (str "meta") ++ str "\":" := by decide
  have third : str ",\"start\":" = str "," ++ str "\"" ++ Json.escapeString (str "start") ++
      str "\":" := by decide
  rw [Record.toJson_sorted, recordText, opening, afterName, second, third]
  simp only [Json.dump, Json.dumpAt, Json.dumpFields, Json.spaces, List.replicate_zero,
    List.append_nil, Bool.false_eq_true, if_false, List.append_assoc]

theorem smeta_thrice (floatText : Rat → Bytes) (r : Record) :
    smeta floatText [r, r, r] = str "[" ++ r.toJson.dump floatText ++ str "," ++
      r.toJson.dump floatText ++ str "," ++ r.toJson.dump floatText ++ str "]" := by
  simp only [smeta, List.map_cons, List.map_nil, Json.dump, Json.dumpAt, Json.dumpItems, Json.spaces,
    List.replicate_zero, List.append_nil, Bool.false_eq_true, if_false, List.append_assoc]

/-- A metadata payload whose size wraps to 0: the reader takes it for segments of its own and
jumps from place to place within the file names, past the data segment. -/
def wrapped (n : Nat) (gap after : Bytes) : Bytes :=
  str "meta" ++ [0, 0, 0, 0] ++ (str "[" ++ beforeName) ++ List.replicate n 120 ++ gap ++
    List.replicate n 120 ++ gap ++ List.replicate n 120 ++ after

theorem length_wrapped (n : Nat) (gap after : Bytes) :
    (wrapped n gap after).length = 22 + 3 * n + 2 * gap.length + after.length := by
  have opening : (str "meta" ++ [0, 0, 0, 0] ++ (str "[" ++ beforeName)).length = 22 := by decide
  simp only [wrapped, List.length_append, List.length_replicate] at opening ⊢
  omega

def Jumps (l : Cursor) : Prop :=
  (l.cur = 0 ∨ l.cur = 8 ∨ l.cur = 1852140665 ∨ l.cur = 3873301753 ∨ l.cur = 5894462841) ∧
    str "data" ∉ l.res.map Prod.fst

theorem jump {buf : Bytes} {cur n : Nat} {res : List Segment} {name size : Bytes}
    (absent : str "data" ∉ res.map Prod.fst) (name_eq : slice buf cur (cur + 4) = name)
    (size_eq : slice buf (cur + 4) (cur + 8) = size) (other : name ≠ str "data")
    (value : Memory.leNat size = n) :
    (parseSegment buf ⟨cur, res⟩).cur = cur + n + 8 ∧
    str "data" ∉ (parseSegment buf ⟨cur, res⟩).res.map Prod.fst := by
  subst name_eq size_eq value
  exact ⟨rfl, assign_absent absent other _⟩

def longLength : Nat := 1431655590

section Jumping

variable {gap after : Bytes} (between : gap.length = 175)

include between in
theorem slice_names {i : Nat} (inside : 1431655787 ≤ i ∧ i + 4 ≤ 2863311377 ∨
    2863311552 ≤ i ∧ i + 4 ≤ 4294967142) :
    slice (wrapped longLength gap after) i (i + 4) = str "xxxx" := by
  have opening : (str "meta" ++ [0, 0, 0, 0] ++ (str "[" ++ beforeName)).length = 22 := by decide
  have first : (str "meta" ++ [0, 0, 0, 0] ++ (str "[" ++ beforeName) ++
      List.replicate longLength 120 ++ gap).length = 1431655787 := by
    rw [List.length_append, List.length_append, opening, List.length_replicate, between, longLength]
  rcases inside with ⟨above, below⟩ | ⟨above, below⟩
  · have split : wrapped longLength gap after =
        (str "meta" ++ [0, 0, 0, 0] ++ (str "[" ++ beforeName) ++
          List.replicate longLength 120 ++ gap) ++ List.replicate longLength 120 ++
          (gap ++ List.replicate longLength 120 ++ after) := by
      simp only [wrapped, List.append_assoc]
    rw [split]
    exact slice_run 120 (by rw [first]; exact above) (by rw [first, longLength]; omega)
  · have second : (str "meta" ++ [0, 0, 0, 0] ++ (str "[" ++ beforeName) ++
        List.replicate longLength 120 ++ gap ++ List.replicate longLength 120 ++
        gap).length = 2863311552 := by
      rw [List.length_append, List.length_append, first, List.length_replicate, between, longLength]
    rw [wrapped]
    exact slice_run 120 (by rw [second]; exact above) (by rw [second, longLength]; omega)

include between in
theorem Jumps.next {l : Cursor} (jumps : Jumps l) (below : l.cur < 5894462841) :
    Jumps (parseSegment (wrapped longLength gap after) l) ∧
      l.cur < (parseSegment (wrapped longLength gap after) l).cur := by
  have front : ∀ i j, j ≤ 22 → slice (wrapped longLength gap after) i j =
      slice (str "meta" ++ [0, 0, 0, 0] ++ (str "[" ++ beforeName)) i j := by
    intro i j inside
    have opening : (str "meta" ++ [0, 0, 0, 0] ++ (str "[" ++ beforeName)).length = 22 := by decide
    have split : wrapped longLength gap after = str "meta" ++ [0, 0, 0, 0] ++
        (str "[" ++ beforeName) ++ (List.replicate longLength 120 ++ (gap ++
          (List.replicate longLength 120 ++ (gap ++ (List.replicate longLength 120 ++ after))))) := by
      simp only [wrapped, List.append_assoc]
    rw [split]
    exact slice_before (by rw [opening]; exact inside)
  have other : str "xxxx" ≠ str "data" := by decide
  have size : Memory.leNat (str "xxxx") = 2021161080 := by decide
  obtain ⟨cur, res⟩ := l
  obtain ⟨position, absent⟩ := jumps
  simp only at position absent below ⊢
  rcases position with rfl | rfl | rfl | rfl | rfl
  · have name : slice (wrapped longLength gap after) 0 (0 + 4) = str "meta" :=
      (front _ _ (by decide)).trans (by decide)
    have zeros : slice (wrapped longLength gap after) (0 + 4) (0 + 8) = [0, 0, 0, 0] :=
      (front _ _ (by decide)).trans (by decide)
    obtain ⟨cur, absent'⟩ := jump (n := 0) absent name zeros (by decide) (by decide)
    exact ⟨⟨.inr (.inl cur), absent'⟩, by omega⟩
  · have name : slice (wrapped longLength gap after) 8 (8 + 4) = str "[\x7b\"f" :=
      (front _ _ (by decide)).trans (by decide)
    have ilen : slice (wrapped longLength gap after) (8 + 4) (8 + 8) = str "ilen" :=
      (front _ _ (by decide)).trans (by decide)
    obtain ⟨cur, absent'⟩ := jump (n := 1852140649) absent name ilen (by decide) (by decide)
    exact ⟨⟨.inr (.inr (.inl cur)), absent'⟩, by omega⟩
  · obtain ⟨cur, absent'⟩ := jump absent (slice_names between (.inl (by omega)))
      (slice_names between (i := 1852140665 + 4) (.inl (by omega))) other size
    exact ⟨⟨.inr (.inr (.inr (.inl (by omega)))), absent'⟩, by omega⟩
  · obtain ⟨cur, absent'⟩ := jump absent (slice_names between (.inr (by omega)))
      (slice_names between (i := 3873301753 + 4) (.inr (by omega))) other size
    exact ⟨⟨.inr (.inr (.inr (.inr (by omega)))), absent'⟩, by omega⟩
  · omega

end Jumping

theorem parse_jumps {buf : Bytes} (total : buf.length ≤ 5894462849)
    (next : ∀ l, Jumps l → l.cur < 5894462841 →
      Jumps (parseSegment buf l) ∧ l.cur < (parseSegment buf l).cur) :
    ∃ res, parseSegments buf = some res ∧ str "data" ∉ res.map Prod.fst := by
  have start : Jumps ⟨0, []⟩ := ⟨.inl rfl, by simp⟩
  have ends : (parseLoop buf ⟨0, []⟩).Ends
      (fun l => Jumps l ∧ decide (l.cur + 8 < buf.length) = false) (fun _ _ => False) := by
    apply Imperative.whileLoop_ends Jumps fun l => buf.length - l.cur
    · intro l _ go
      simp only [decide_eq_true_eq] at go
      omega
    · intro l jumps go
      simp only [decide_eq_true_eq] at go
      obtain ⟨jumped, further⟩ := next l jumps (by omega)
      exact ⟨jumped, by omega⟩
    · exact start
    · exact Nat.sub_le _ _
  obtain ⟨l, result, jumps, _⟩ := ends.result
  exact ⟨l.res, by rw [parseSegments, result, Option.map_some], jumps.2⟩

def thrice (filename : Bytes) : Stream Codec.plain :=
  (((create Codec.plain 196000).append filename).append filename).append filename

def announcement (filename : Bytes) : Record := ⟨((0 : Nat) : Rat) / 48000, filename, .unknown⟩

theorem silent_rounds (filename : Bytes) :
    ∃ l₁ l₂ l₃, advanceBody (.ofFiles fun _ _ => []) (.start 240000 (thrice filename)) = .done l₁ ∧
      advanceBody (.ofFiles fun _ _ => []) l₁ = .done l₂ ∧
      advanceBody (.ofFiles fun _ _ => []) l₂ = .done l₃ ∧ wants l₁ = true ∧ wants l₂ = true ∧
      l₃.stream.decoders = [] ∧ l₃.stream.encoder = EncoderImpl.create Codec.plain 48000 2 ∧
      l₃.stream.bitrate = 196000 ∧ l₃.osBufData = [] ∧
      l₃.metadata = [announcement filename, announcement filename, announcement filename] :=
  ⟨_, _, _, rfl, rfl, rfl, rfl, rfl, rfl, rfl, rfl, rfl, rfl⟩

theorem silent_files (filename : Bytes) :
    ∃ t, step (thrice filename) (.advance (.ofFiles fun _ _ => []) 240000) = some (t,
      .segments [announcement filename, announcement filename, announcement filename]
        [0x1a, 0xa3, 0, 0x1c]) := by
  obtain ⟨l₁, l₂, l₃, first, second, third, wants₁, wants₂, decoders, encoder, bitrate, data,
    metadata⟩ := silent_rounds filename
  have dumped : ((EncoderImpl.create Codec.plain 48000 2).finalize 196000).map Prod.snd =
      some [0x1a, 0xa3, 0, 0x1c] := by decide +kernel
  obtain ⟨⟨e, out⟩, finalised, rfl⟩ := Option.map_eq_some_iff.mp dumped
  have stop : wants l₃ = false := by simp [wants, decoders]
  have loop : advanceLoop (.ofFiles fun _ _ => []) 240000 (thrice filename) = .done l₃ := by
    have go : wants (.start 240000 (thrice filename)) = true := rfl
    have round₁ := Imperative.whileLoop_step _ (advanceBody (.ofFiles fun _ _ => [])) 1920002 _ go
    have round₂ := Imperative.whileLoop_step _ (advanceBody (.ofFiles fun _ _ => [])) 1920001 _ wants₁
    have round₃ := Imperative.whileLoop_step _ (advanceBody (.ofFiles fun _ _ => [])) 1920000 _ wants₂
    rw [third, Imperative.Outcome.done_bind, Imperative.whileLoop_exit _ _ _ _ stop] at round₃
    rw [second, Imperative.Outcome.done_bind, round₃] at round₂
    rw [first, Imperative.Outcome.done_bind, round₂] at round₁
    exact round₁
  refine ⟨{ l₃.stream with encoder := e }, ?_⟩
  simp only [step, advance, loop, Imperative.Outcome.done_bind, finalizeIfDone, decoders,
    List.isEmpty_nil, if_true, encoder, bitrate, finalised, data, metadata, List.nil_append]

/-- A request to append a file of this name has less than 2^31 bytes, and the metadata of three such
files has 2^32. -/
def longName : Bytes := List.replicate longLength 120

theorem segments_longName (data : Bytes) :
    ∃ gap after, gap.length = 175 ∧ after.length = 162 + 8 + data.length ∧
      segments minusOne [announcement longName, announcement longName, announcement longName] data =
        wrapped longLength gap after := by
  have plain : Json.escapeString longName = longName :=
    Json.escapeString_plain fun b member => by
      rw [List.eq_of_mem_replicate member]
      decide
  have text : (announcement longName).toJson.dump minusOne = recordText beforeName
      (afterName minusOne (((0 : Nat) : Rat) / 48000) .unknown) longName := dump_record _ _ _ _
  have tail_length : (afterName minusOne (((0 : Nat) : Rat) / 48000) .unknown).length = 161 := by
    decide +kernel
  generalize afterName minusOne (((0 : Nat) : Rat) / 48000) .unknown = tail at text tail_length
  rw [recordText, plain] at text
  have before : beforeName.length = 13 := by decide
  have comma : (str ",").length = 1 ∧ (str "[").length = 1 ∧ (str "]").length = 1 := by decide
  have size : (smeta minusOne [announcement longName, announcement longName,
      announcement longName]).length = 4294967296 := by
    rw [smeta_thrice, text]
    simp only [List.length_append, before, tail_length, comma, longName, List.length_replicate,
      longLength]
  have zeros : Memory.leBytes 4294967296 = [0, 0, 0, 0] := by decide
  refine ⟨tail ++ str "," ++ beforeName, tail ++ str "]" ++ segment (str "data") data, ?_, ?_, ?_⟩
  · simp only [List.length_append, tail_length, comma, before]
  · have name : (str "data").length = 4 := by decide
    simp only [List.length_append, tail_length, comma, length_segment name]
    omega
  · rw [segments, segment, size, zeros, smeta_thrice, text, wrapped, longName]
    simp only [List.append_assoc]

/-- Two ways in which the page does not go on though the encoder is not finalised. A call that throws
has its head followed by that of the error, and nothing is loaded; and the size of the metadata of
three files wraps to 0, and then the data segment is not found. -/
theorem answers_that_stop_page :
    (∃ streams sent u, run (create Codec.plain 196000) [.append (str "side a") 0] =
        some (streamA, [.appended]) ∧
      eventHandler [advanceEntry sideA] onlyA [] (.httpRequest askA) = .done (streams, sent) ∧
      loadedBody sent = none ∧
      streams (str "A") = some u ∧ u.encoder.done = false ∧ u.decoders ≠ []) ∧
    ∃ u us v metadata data, longName.length < 2147483648 ∧
      run (create Codec.plain 196000) [.append longName 0, .append longName 0, .append longName 0] =
        some (u, us) ∧
      u.encoder.done = false ∧
      step u (.advance (.ofFiles fun _ _ => []) 240000) = some (v, .segments metadata data) ∧
      data ≠ [] ∧
      (({} : Page).nextChunk (segments minusOne metadata data)).map Page.asking = some false := by
  constructor
  · exact ⟨_, _, _, rfl, rfl, rfl, rfl, rfl, by simp⟩
  · obtain ⟨t, stepped⟩ := silent_files longName
    obtain ⟨gap, after, between, length, wraps⟩ := segments_longName [0x1a, 0xa3, 0, 0x1c]
    have total : (wrapped longLength gap after).length ≤ 5894462849 := by
      rw [length_wrapped, between, length]
      decide
    obtain ⟨res, parsed, absent⟩ := parse_jumps total fun l jumps below => jumps.next between below
    have short : longName.length < 2147483648 := by
      rw [longName, List.length_replicate, longLength]
      decide
    refine ⟨_, _, t, _, _, short, rfl, rfl, stepped, by decide, ?_⟩
    rw [wraps]
    exact nextChunk_absent {} parsed absent

end Stream

end HttpAudioServer

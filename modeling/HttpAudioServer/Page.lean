import HttpAudioServer.Stream

/-! The reader of the page, index.html. A buffer is a list of bytes, and a string made from
bytes one by one is those bytes. An object is the list of its properties. -/
namespace HttpAudioServer

/-- `ArrayBuffer.slice`, which stops at the end of the buffer. -/
def slice (buf : Bytes) (start stop : Nat) : Bytes := (buf.drop start).take (stop - start)

abbrev Segment := Bytes × Bytes

/-- `res[name] = data`. -/
def assign (res : List Segment) (name data : Bytes) : List Segment :=
  if res.any fun s => s.1 == name then res.map fun s => if s.1 = name then (name, data) else s
  else res ++ [(name, data)]

structure Cursor where
  cur : Nat
  res : List Segment
deriving DecidableEq, Repr

def parseSegment (buf : Bytes) (l : Cursor) : Cursor :=
  let name := slice buf l.cur (l.cur + 4)
  let size := Memory.leNat (slice buf (l.cur + 4) (l.cur + 8))
  let data := slice buf (l.cur + 8) (l.cur + 8 + size)
  { cur := l.cur + size + 8, res := assign l.res name data }

/-- The loop of `parse_segments`. Each round takes eight bytes or more. -/
def parseLoop (buf : Bytes) (l : Cursor) : Imperative.Outcome Empty Cursor :=
  Imperative.whileLoop (fun l => decide (l.cur + 8 < buf.length))
    (fun l => .done (parseSegment buf l)) buf.length l

def parseSegments (buf : Bytes) : Option (List Segment) :=
  (parseLoop buf ⟨0, []⟩).result?.map Cursor.res

def serialise (segments : List Segment) : Bytes := segments.flatMap fun s => segment s.1 s.2

theorem segments_serialise (floatText : Rat → Bytes) (metadata : List Record) (data : Bytes) :
    Stream.segments floatText metadata data =
      serialise [(str "meta", Stream.smeta floatText metadata), (str "data", data)] := by
  simp [Stream.segments, serialise]

theorem slice_at {buf before inside after : Bytes} {start stop : Nat}
    (split : buf = before ++ inside ++ after) (starts : start = before.length)
    (stops : stop = before.length + inside.length) : slice buf start stop = inside := by
  subst split starts stops
  rw [slice, List.append_assoc, List.drop_left, Nat.add_sub_cancel_left, List.take_left]

theorem slice_before {before after : Bytes} {start stop : Nat} (inside : stop ≤ before.length) :
    slice (before ++ after) start stop = slice before start stop := by
  rcases Nat.le_total start stop with ordered | reversed
  · rw [slice, slice, List.drop_append_of_le_length (by omega),
      List.take_append_of_le_length (by rw [List.length_drop]; omega)]
  · simp [slice, Nat.sub_eq_zero_of_le reversed]

theorem slice_run {before after : Bytes} {n start k : Nat} (x : UInt8) (above : before.length ≤ start)
    (below : start + k ≤ before.length + n) :
    slice (before ++ List.replicate n x ++ after) start (start + k) = List.replicate k x := by
  obtain ⟨skip, rfl⟩ := Nat.exists_eq_add_of_le above
  rw [slice, Nat.add_sub_cancel_left, List.append_assoc, List.drop_append, List.drop_eq_nil_of_le above,
    List.nil_append, Nat.add_sub_cancel_left, List.drop_append_of_le_length (by simp; omega),
    List.drop_replicate, List.take_append_of_le_length (by simp; omega), List.take_replicate,
    Nat.min_eq_left (by omega)]

theorem assign_absent {res : List Segment} {name key : Bytes} (absent : key ∉ res.map Prod.fst)
    (other : name ≠ key) (data : Bytes) : key ∉ (assign res name data).map Prod.fst := by
  unfold assign
  split
  · intro member
    obtain ⟨s, inside, same⟩ := List.mem_map.mp member
    obtain ⟨s', inside', replaced⟩ := List.mem_map.mp inside
    split at replaced
    · subst replaced
      exact other same
    · subst replaced
      exact absent (List.mem_map.mpr ⟨s', inside', same⟩)
  · rw [List.map_append, List.mem_append]
    rintro (old | new)
    · exact absent old
    · exact other (List.mem_singleton.mp new).symm

theorem assign_fresh {res : List Segment} {name : Bytes} (fresh : name ∉ res.map Prod.fst)
    (data : Bytes) : assign res name data = res ++ [(name, data)] := by
  have none : (res.any fun s => s.1 == name) = false := by
    rw [List.any_eq_false]
    intro s member same
    rw [beq_iff_eq] at same
    exact fresh (List.mem_map.mpr ⟨s, member, same⟩)
  simp [assign, none]

theorem length_segment {name : Bytes} (four : name.length = 4) (payload : Bytes) :
    (segment name payload).length = payload.length + 8 := by
  simp only [segment, List.length_append, Memory.length_leBytes]
  omega

theorem parseSegment_next (past : Bytes) {name payload : Bytes} (after : Bytes) (res : List Segment)
    (four : name.length = 4) (fits : payload.length < 4294967296)
    (fresh : name ∉ res.map Prod.fst) :
    parseSegment (past ++ segment name payload ++ after) ⟨past.length, res⟩ =
      ⟨past.length + (segment name payload).length, res ++ [(name, payload)]⟩ := by
  have at_name : past ++ segment name payload ++ after =
      past ++ name ++ (Memory.leBytes payload.length ++ payload ++ after) := by simp [segment]
  have at_size : past ++ segment name payload ++ after =
      past ++ name ++ Memory.leBytes payload.length ++ (payload ++ after) := by simp [segment]
  have at_data : past ++ segment name payload ++ after =
      past ++ name ++ Memory.leBytes payload.length ++ payload ++ after := by simp [segment]
  have name_eq : slice (past ++ segment name payload ++ after) past.length (past.length + 4) = name :=
    slice_at at_name rfl (by rw [four])
  have size_eq : slice (past ++ segment name payload ++ after) (past.length + 4) (past.length + 8) =
      Memory.leBytes payload.length :=
    slice_at at_size (by rw [List.length_append, four])
      (by rw [List.length_append, four, Memory.length_leBytes])
  have data_eq : slice (past ++ segment name payload ++ after) (past.length + 8)
      (past.length + 8 + payload.length) = payload :=
    slice_at at_data (by simp [four]) (by simp [four])
  simp only [parseSegment, name_eq, size_eq, Memory.leNat_leBytes_of_lt fits, data_eq,
    assign_fresh fresh]
  rw [length_segment four, Nat.add_assoc]

/-- What a reader finds in a list of segments: all of them, unless the last one is empty. -/
def received (segments : List Segment) : List Segment :=
  segments.dropLast ++ segments.getLast?.toList.filter fun s => !s.2.isEmpty

/-- Between two rounds the cursor is at the start of a segment, and the last one that has
been read was not empty if there is nothing after it. -/
structure Parsing (segments : List Segment) (l : Cursor) (todo : List Segment) : Prop where
  split : segments = l.res ++ todo
  position : l.cur = (serialise l.res).length
  ended : todo = [] → ∀ last, l.res.getLast? = some last → last.2 ≠ []

section Parse

variable {segments : List Segment} (names : (segments.map Prod.fst).Nodup)
  (fits : ∀ s ∈ segments, s.1.length = 4 ∧ s.2.length < 4294967296)

theorem serialise_append (xs ys : List Segment) : serialise (xs ++ ys) = serialise xs ++ serialise ys :=
  List.flatMap_append

theorem length_serialise_cons (s : Segment) (later : List Segment) :
    (serialise (s :: later)).length = (segment s.1 s.2).length + (serialise later).length := by
  simp [serialise]

theorem received_concat (past : List Segment) (s : Segment) :
    received (past ++ [s]) = if s.2 = [] then past else past ++ [s] := by
  by_cases empty : s.2 = [] <;> simp [received, empty]

include fits in
theorem Parsing.stop {l : Cursor} {todo : List Segment} (h : Parsing segments l todo)
    (stop : ¬ l.cur + 8 < (serialise segments).length) : l.res = received segments := by
  obtain ⟨split, position, ended⟩ := h
  cases todo with
  | nil =>
    rw [List.append_nil] at split
    subst split
    rcases List.eq_nil_or_concat l.res with none_read | ⟨past, last, some_read⟩
    · rw [none_read]
      rfl
    · rw [List.concat_eq_append] at some_read
      have full : last.2 ≠ [] := ended rfl last (by simp [some_read])
      rw [some_read, received_concat, if_neg full]
  | cons s later =>
    have total : (serialise segments).length =
        l.cur + (segment s.1 s.2).length + (serialise later).length := by
      rw [split, serialise_append, List.length_append, length_serialise_cons, position, Nat.add_assoc]
    rw [length_segment (fits s (by simp [split])).1] at total
    have alone : later = [] := by
      cases later with
      | nil => rfl
      | cons s' later =>
        have eight := length_segment (fits s' (by simp [split])).1 s'.2
        rw [length_serialise_cons] at total
        omega
    have empty : s.2 = [] := by
      rw [← List.length_eq_zero_iff]
      omega
    rw [split, alone, received_concat, if_pos empty]

include names fits in
theorem Parsing.next {l : Cursor} {todo : List Segment} (h : Parsing segments l todo)
    (go : l.cur + 8 < (serialise segments).length) :
    ∃ later, Parsing segments (parseSegment (serialise segments) l) later ∧
      l.cur < (parseSegment (serialise segments) l).cur := by
  obtain ⟨cur, res⟩ := l
  obtain ⟨split, position, ended⟩ := h
  simp only at split position ended go
  cases todo with
  | nil =>
    rw [split, List.append_nil, ← position] at go
    omega
  | cons s later =>
    obtain ⟨four, small⟩ := fits s (by simp [split])
    have buf : serialise segments = serialise res ++ segment s.1 s.2 ++ serialise later := by
      rw [split, serialise_append, List.append_assoc]
      rfl
    have fresh : s.1 ∉ res.map Prod.fst := by
      rw [split, List.map_append, List.map_cons] at names
      exact fun member => (List.nodup_append.mp names).2.2 s.1 member s.1 List.mem_cons_self rfl
    have size := length_segment four s.2
    have next := parseSegment_next (serialise res) (serialise later) res four small fresh
    rw [← buf, ← position] at next
    rw [next]
    refine ⟨later, ⟨?_, ?_, ?_⟩, ?_⟩
    · rw [split, List.append_assoc]
      rfl
    · rw [serialise_append, List.length_append, ← position]
      simp [serialise]
    · rintro rfl last final
      rw [List.getLast?_concat, Option.some.injEq] at final
      subst final
      intro empty
      rw [buf, List.length_append, List.length_append, ← position, size, empty] at go
      simp [serialise] at go
    · simp only
      omega

include names fits

theorem parse_serialise : parseSegments (serialise segments) = some (received segments) := by
  have start : Parsing segments ⟨0, []⟩ segments := ⟨rfl, rfl, by simp⟩
  have ends : (parseLoop (serialise segments) ⟨0, []⟩).Ends
      (fun l => (∃ todo, Parsing segments l todo) ∧
        decide (l.cur + 8 < (serialise segments).length) = false) (fun _ _ => False) := by
    apply Imperative.whileLoop_ends _ fun l => (serialise segments).length - l.cur
    · intro l _ go
      simp only [decide_eq_true_eq] at go
      omega
    · rintro l ⟨todo, h⟩ go
      simp only [decide_eq_true_eq] at go
      obtain ⟨later, next, further⟩ := h.next names fits go
      exact ⟨⟨later, next⟩, by omega⟩
    · exact ⟨segments, start⟩
    · exact Nat.le_refl _
  obtain ⟨l, result, ⟨todo, h⟩, stop⟩ := ends.result
  rw [parseSegments, result, Option.map_some, h.stop fits (by simpa using stop)]

/-- A reader finds in a list of segments what the writer put there, except for a last
segment without payload. -/
theorem segments_roundtrip :
    parseSegments (serialise segments) = some (received segments) ∧
    ∀ past last, segments = past ++ [last] →
      received segments = if last.2 = [] then past else segments := by
  refine ⟨parse_serialise names fits, ?_⟩
  rintro past last rfl
  exact received_concat past last

end Parse

/-- The answer of an exhausted stream, `[]` and no data. The page sees no data segment. -/
theorem empty_data_is_missing :
    parseSegments (serialise [(str "meta", str "[]"), (str "data", [])]) =
      some [(str "meta", str "[]")] := by
  decide

theorem segments_roundtrip_pair :
    parseSegments (serialise [(str "meta", str "[]"), (str "data", [1, 2, 3])]) =
      some [(str "meta", str "[]"), (str "data", [1, 2, 3])] :=
  (segments_roundtrip (by decide) (by decide)).1

structure Fits (floatText : Rat → Bytes) (metadata : List Record) (data : Bytes) : Prop where
  metadata : (Stream.smeta floatText metadata).length < 4294967296
  data : data.length < 4294967296

theorem parse_answer {floatText : Rat → Bytes} {metadata : List Record} {data : Bytes}
    (fits : Fits floatText metadata data) :
    parseSegments (Stream.segments floatText metadata data) =
      some (if data = [] then [(str "meta", Stream.smeta floatText metadata)]
        else [(str "meta", Stream.smeta floatText metadata), (str "data", data)]) := by
  have names : [str "meta", str "data"].Nodup := by decide
  have four : (str "meta").length = 4 ∧ (str "data").length = 4 := by decide
  have small : ∀ s ∈ [(str "meta", Stream.smeta floatText metadata), (str "data", data)],
      s.1.length = 4 ∧ s.2.length < 4294967296 := by
    intro s member
    simp only [List.mem_cons, List.not_mem_nil, or_false] at member
    rcases member with rfl | rfl
    · exact ⟨four.1, fits.metadata⟩
    · exact ⟨four.2, fits.data⟩
  have distinct : ([(str "meta", Stream.smeta floatText metadata), (str "data", data)].map
      Prod.fst).Nodup := names
  rw [segments_serialise, parse_serialise distinct small]
  exact congrArg some (received_concat [_] _)

/-- What the page has passed to the source buffer and to the list of titles, and whether
it goes on asking for chunks. -/
structure Page where
  sourceBuffer : List Bytes := []
  metadata : List Bytes := []
  bufferTs : Rat := 0
  asking : Bool := true

/-- The callback of `next_chunk`. It asks again, at once or when less is buffered, if there
is a data segment. -/
def Page.nextChunk (page : Page) (buf : Bytes) : Option Page :=
  (parseSegments buf).map fun segments =>
    let page :=
      match segments.lookup (str "data") with
      | some data => { page with
          sourceBuffer := page.sourceBuffer ++ [data]
          bufferTs := page.bufferTs + 5
          asking := true }
      | none => { page with asking := false }
    match segments.lookup (str "meta") with
    | some text => { page with metadata := page.metadata ++ [text] }
    | none => page

theorem nextChunk_answer (page : Page) {floatText : Rat → Bytes} {metadata : List Record}
    {data : Bytes} (fits : Fits floatText metadata data) :
    page.nextChunk (Stream.segments floatText metadata data) = some (
      if data = [] then { page with
        metadata := page.metadata ++ [Stream.smeta floatText metadata]
        asking := false }
      else { page with
        sourceBuffer := page.sourceBuffer ++ [data]
        metadata := page.metadata ++ [Stream.smeta floatText metadata]
        bufferTs := page.bufferTs + 5
        asking := true }) := by
  rw [Page.nextChunk, parse_answer fits, Option.map_some]
  by_cases empty : data = []
  · rw [if_pos empty, if_pos empty]
    rfl
  · rw [if_neg empty, if_neg empty]
    rfl

theorem nextChunk_absent (page : Page) {buf : Bytes} {res : List Segment}
    (parsed : parseSegments buf = some res) (absent : str "data" ∉ res.map Prod.fst) :
    (page.nextChunk buf).map Page.asking = some false := by
  have none_found : res.lookup (str "data") = none := by
    rw [List.lookup_eq_none_iff]
    intro s member
    rw [bne_iff_ne]
    exact fun same => absent (List.mem_map.mpr ⟨s, member, same.symm⟩)
  rw [Page.nextChunk, parsed, Option.map_some, none_found, Option.map_some]
  cases res.lookup (str "meta") <;> rfl

end HttpAudioServer

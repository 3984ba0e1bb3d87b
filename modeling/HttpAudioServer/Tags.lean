import HttpAudioServer.Dumps
import HttpAudioServer.Extraction
import HttpAudioServer.Flatten

/-! The text fields of the metadata: which tag they are read from, and that neither the other tags
nor the order of the extraction matter. -/
namespace HttpAudioServer

open FloatingPoint

/-- Up to the case of ASCII letters. -/
def SameName (name key : Bytes) : Prop := key.map tolower = name.map tolower

def Json.IsTextOrNumber : Json → Prop
  | .string _ | .integer _ | .float _ => True
  | _ => False

/-- `{format: {.., tags: {..}}}`, where the tags are texts under arbitrary keys. The members of
`format` may come in any order. -/
structure FfprobeShape (doc : Json) (format : List (Bytes × Json)) (tags : List (Bytes × Bytes)) :
    Prop where
  shape : ∃ fields, doc = .object [(str "format", .object fields)] ∧
    fields.Perm ((str "tags", .object (tags.map fun e => (e.1, .string e.2))) :: format)
  names : (str "tags" :: format.map Prod.fst).Nodup
  keys : (tags.map Prod.fst).Nodup
  plain : ∀ e ∈ format, e.1 ≠ [] ∧ 58 ∉ e.1 ∧ e.2.IsTextOrNumber

/-- The names looked up among the tags. -/
def tagNames : List Bytes := [str "title", str "album", str "artist", str "date", str "track",
  str "track_total", str "disc", str "disc_total"]

def SameTags (tags tags' : List (Bytes × Bytes)) : Prop :=
  ∀ name ∈ tagNames, ∀ key value, SameName name key →
    ((key, value) ∈ tags ↔ (key, value) ∈ tags')

/-- What is found under a name: the value of the least key that is the name up to case. -/
def LooksUp {α : Type} (name : Bytes) (entries : List (Bytes × α)) (found : Option α) : Prop :=
  match found with
  | some value => ∃ key, (key, value) ∈ entries ∧ SameName name key ∧
      ∀ e ∈ entries, SameName name e.1 → ¬ e.1 < key
  | none => ∀ e ∈ entries, ¬ SameName name e.1

def formatKey (key : Bytes) : Bytes := str "format::" ++ key

def tagKey (key : Bytes) : Bytes := str "format::tags::" ++ key

def flatEntries (format : List (Bytes × Json)) (tags : List (Bytes × Bytes)) :
    List (Bytes × Json) :=
  (tags.map fun e => (tagKey e.1, .string e.2)) ++ format.map fun e => (formatKey e.1, e.2)

theorem tolower_colon {ch : UInt8} (colon : tolower ch = 58) : ch = 58 := by
  unfold tolower at colon
  split at colon
  case isTrue capital =>
    have value := congrArg UInt8.toNat colon
    have range : 65 ≤ ch.toNat ∧ ch.toNat ≤ 90 := capital
    rw [UInt8.toNat_add] at value
    change (ch.toNat + 32) % 256 = 58 at value
    omega
  case isFalse => exact colon

theorem colon_of_map {s t : Bytes} (same : s.map tolower = t.map tolower) (colon : 58 ∈ t) :
    58 ∈ s := by
  have lowered : (58 : UInt8) ∈ t.map tolower := List.mem_map.mpr ⟨58, colon, rfl⟩
  rw [← same] at lowered
  obtain ⟨ch, member, lower⟩ := List.mem_map.mp lowered
  exact tolower_colon lower ▸ member

section Shapes

variable {format : List (Bytes × Json)} {tags : List (Bytes × Bytes)}

theorem tagKey_eq (key : Bytes) : tagKey key = formatKey (str "tags::" ++ key) := rfl

theorem tag_has_colon (key : Bytes) : 58 ∈ str "tags::" ++ key :=
  List.mem_append_left _ (by decide)

theorem fieldLeaves_eq (fields : List (Bytes × Json)) :
    Json.fieldLeaves fields =
      fields.flatMap fun e => e.2.leaves.map fun l => (e.1 :: l.1, l.2) := by
  induction fields with
  | nil => rw [Json.fieldLeaves, List.flatMap_nil]
  | cons e fields ih => rw [Json.fieldLeaves, ih, List.flatMap_cons]

theorem fieldLeaves_flat {fields : List (Bytes × Json)}
    (flat : ∀ e ∈ fields, e.2.leaves = [([], e.2)]) :
    Json.fieldLeaves fields = fields.map fun e => ([e.1], e.2) := by
  induction fields with
  | nil => rw [Json.fieldLeaves, List.map_nil]
  | cons e fields ih =>
    rw [Json.fieldLeaves, flat e List.mem_cons_self, List.map_cons,
      ih fun f member => flat f (List.mem_cons_of_mem e member)]
    rfl

theorem leaves_of_textOrNumber {j : Json} (plain : j.IsTextOrNumber) : j.leaves = [([], j)] := by
  cases j with
  | string | integer | float => rw [Json.leaves]
  | null | boolean | array | object => exact plain.elim

variable {doc : Json} (shape : FfprobeShape doc format tags)
include shape

theorem FfprobeShape.flattened_perm :
    ∃ fields, doc = .object fields ∧ (flattened fields).Perm (flatEntries format tags) := by
  obtain ⟨fields, rfl, perm⟩ := shape.shape
  refine ⟨_, rfl, ?_⟩
  have inside : (Json.fieldLeaves fields).Perm
      ((tags.map fun e => ([str "tags", e.1], Json.string e.2)) ++
        format.map fun e => ([e.1], e.2)) := by
    rw [fieldLeaves_eq]
    refine (perm.flatMap_right _).trans (List.Perm.of_eq ?_)
    rw [← fieldLeaves_eq, Json.fieldLeaves, Json.leaves,
      fieldLeaves_flat fun e member => leaves_of_textOrNumber (shape.plain e member).2.2]
    rw [fieldLeaves_flat, List.map_map, List.map_map]
    · rfl
    · intro e member
      obtain ⟨tag, -, rfl⟩ := List.mem_map.mp member
      rw [Json.leaves]
  have outer : flattened [(str "format", .object fields)] =
      (Json.fieldLeaves fields).map fun l => (joinKeys [] (str "format" :: l.1), l.2) := by
    rw [flattened, Json.fieldLeaves, Json.leaves, Json.fieldLeaves, List.append_nil, List.map_map]
    rfl
  rw [outer]
  refine (inside.map _).trans (List.Perm.of_eq ?_)
  rw [List.map_append, List.map_map, List.map_map]
  rfl

theorem FfprobeShape.keys_nodup : ((flatEntries format tags).map Prod.fst).Nodup := by
  have of_tags : (tags.map fun e => tagKey e.1).Nodup := by
    have below := shape.keys.map (f := tagKey) fun _ _ => List.append_cancel_left
    rwa [List.map_map] at below
  have of_format : (format.map fun e => formatKey e.1).Nodup := by
    have below := (List.nodup_cons.mp shape.names).2.map (f := formatKey)
      fun _ _ => List.append_cancel_left
    rwa [List.map_map] at below
  rw [flatEntries, List.map_append, List.map_map, List.map_map]
  refine List.Nodup.append of_tags of_format fun key here there => ?_
  obtain ⟨tag, -, rfl⟩ := List.mem_map.mp here
  obtain ⟨e, member, same⟩ := List.mem_map.mp there
  have equal : e.1 = str "tags::" ++ tag.1 := List.append_cancel_left same
  exact (shape.plain e member).2.1 (equal ▸ tag_has_colon tag.1)

/-- The flat map of a document of this shape. -/
theorem FfprobeShape.flaten : ∃ data, flaten doc = .ok data ∧
    ∀ key value, data.find key = some value ↔ (key, value) ∈ flatEntries format tags := by
  obtain ⟨fields, rfl, perm⟩ := shape.flattened_perm
  obtain ⟨data, result, finds⟩ := flaten_object fields
  refine ⟨data, result, fun key value => ?_⟩
  rw [finds, OrderedMap.at_of_nodup ((perm.map Prod.fst).nodup_iff.mpr shape.keys_nodup),
    perm.mem_iff]

end Shapes

section Lookups

variable {format : List (Bytes × Json)} {tags : List (Bytes × Bytes)} {doc : Json}
  (shape : FfprobeShape doc format tags) {data : Leaves}
  (entries : ∀ key value, data.find key = some value ↔ (key, value) ∈ flatEntries format tags)

theorem regexMatch_below {p name key : Bytes} :
    regexMatch (p ++ name) (p ++ key) = true ↔ SameName name key := by
  rw [regexMatch, decide_eq_true_eq, List.map_append, List.map_append, List.append_cancel_left_eq]
  rfl

include shape in
theorem format_no_tag {name : Bytes} {e : Bytes × Json} (member : e ∈ format) :
    regexMatch (tagKey name) (formatKey e.1) = false := by
  rw [tagKey_eq]
  by_contra matched
  have same := regexMatch_below.mp (Bool.not_eq_false _ ▸ matched)
  exact (shape.plain e member).2.1 (colon_of_map same (tag_has_colon name))

theorem tag_no_format {name key : Bytes} (plain : 58 ∉ name) :
    regexMatch (formatKey name) (tagKey key) = false := by
  rw [tagKey_eq]
  by_contra matched
  have same := regexMatch_below.mp (Bool.not_eq_false _ ▸ matched)
  exact plain (colon_of_map same.symm (tag_has_colon key))

include shape entries in
theorem find_tag {name key : Bytes} {value : Json} (matched : regexMatch (tagKey name) key = true) :
    data.find key = some value ↔ ∃ e ∈ tags, key = tagKey e.1 ∧ value = .string e.2 := by
  rw [entries, flatEntries, List.mem_append, List.mem_map, List.mem_map]
  constructor
  · rintro (⟨e, member, same⟩ | ⟨e, member, same⟩)
    · cases same
      exact ⟨e, member, rfl, rfl⟩
    · cases same
      rw [format_no_tag shape member] at matched
      contradiction
  · rintro ⟨e, member, rfl, rfl⟩
    exact .inl ⟨e, member, rfl⟩

include entries in
theorem find_format {name key : Bytes} {value : Json} (plain : 58 ∉ name)
    (matched : regexMatch (formatKey name) key = true) :
    data.find key = some value ↔ ∃ e ∈ format, key = formatKey e.1 ∧ value = e.2 := by
  rw [entries, flatEntries, List.mem_append, List.mem_map, List.mem_map]
  constructor
  · rintro (⟨e, member, same⟩ | ⟨e, member, same⟩)
    · cases same
      rw [tag_no_format plain] at matched
      contradiction
    · cases same
      exact ⟨e, member, rfl, rfl⟩
  · rintro ⟨e, member, rfl, rfl⟩
    exact .inr ⟨e, member, rfl⟩

/-- What the search in the flat map finds, from what it finds under the keys that match. -/
theorem first_looksUp {α : Type} {entriesOf : List (Bytes × α)} {pre name : Bytes} {v : α → Json}
    (finds : ∀ key value, regexMatch (pre ++ name) key = true →
      (data.find key = some value ↔ ∃ e ∈ entriesOf, key = pre ++ e.1 ∧ value = v e.2)) :
    ∃ found, LooksUp name entriesOf found ∧
      (getJson (pre ++ name) data).1 = (found.map v).getD .null := by
  unfold getJson
  cases result : data.first (regexMatch (pre ++ name)) with
  | none =>
    refine ⟨none, fun e member same => ?_, rfl⟩
    have matched := (regexMatch_below (p := pre)).mpr same
    have absent := OrderedMap.first_eq_none.mp result _ matched
    have there := (finds _ _ matched).mpr ⟨e, member, rfl, rfl⟩
    rw [absent] at there
    contradiction
  | some found =>
    obtain ⟨key, value⟩ := found
    obtain ⟨there, matched, least⟩ := OrderedMap.first_eq_some.mp result
    obtain ⟨e, member, rfl, rfl⟩ := (finds key value matched).mp there
    refine ⟨some e.2, ⟨e.1, member, regexMatch_below.mp matched, fun e' member' same less => ?_⟩, rfl⟩
    have matched' := (regexMatch_below (p := pre)).mpr same
    have there' := (finds _ _ matched').mpr ⟨e', member', rfl, rfl⟩
    exact least _ matched' (by rw [there']; exact Option.some_ne_none _) (List.append_left_lt less)

end Lookups

section Documents

variable {format : List (Bytes × Json)} {tags : List (Bytes × Bytes)} {doc : Json}
  (outside : Value → Int) (floatText : Rat → Bytes)

theorem pattern_cases (f : MetadataField) :
    (∃ name ∈ tagNames, f.pattern = tagKey name) ∨ ∃ name, 58 ∉ name ∧ f.pattern = formatKey name := by
  cases f with
  | title => exact .inl ⟨str "title", by decide, rfl⟩
  | album => exact .inl ⟨str "album", by decide, rfl⟩
  | artist => exact .inl ⟨str "artist", by decide, rfl⟩
  | date => exact .inl ⟨str "date", by decide, rfl⟩
  | trackNumber => exact .inl ⟨str "track", by decide, rfl⟩
  | trackTotal => exact .inl ⟨str "track_total", by decide, rfl⟩
  | discNumber => exact .inl ⟨str "disc", by decide, rfl⟩
  | discTotal => exact .inl ⟨str "disc_total", by decide, rfl⟩
  | format => exact .inr ⟨str "format_name", by decide, rfl⟩
  | duration => exact .inr ⟨str "duration", by decide, rfl⟩

theorem leaf_congr {tags' : List (Bytes × Bytes)} {doc' : Json} {data data' : Leaves}
    (shape : FfprobeShape doc format tags) (shape' : FfprobeShape doc' format tags')
    (entries : ∀ key value, data.find key = some value ↔ (key, value) ∈ flatEntries format tags)
    (entries' : ∀ key value, data'.find key = some value ↔ (key, value) ∈ flatEntries format tags')
    (same : SameTags tags tags') (f : MetadataField) : f.leaf data = f.leaf data' := by
  have finds : data.first (regexMatch f.pattern) = data'.first (regexMatch f.pattern) := by
    refine OrderedMap.first_congr fun key matched => Option.ext fun value => ?_
    rcases pattern_cases f with ⟨name, known, pattern⟩ | ⟨name, plain, pattern⟩
    · rw [pattern] at matched
      rw [find_tag shape entries matched, find_tag shape' entries' matched]
      constructor
      · rintro ⟨e, member, rfl, rfl⟩
        exact ⟨e, (same name known e.1 e.2 (regexMatch_below.mp matched)).mp member, rfl, rfl⟩
      · rintro ⟨e, member, rfl, rfl⟩
        exact ⟨e, (same name known e.1 e.2 (regexMatch_below.mp matched)).mpr member, rfl, rfl⟩
    · rw [pattern] at matched
      rw [find_format entries plain matched, find_format entries' plain matched]
  unfold MetadataField.leaf getJson
  rw [finds]
  split <;> rfl

theorem text_of_found (found : Option Bytes) :
    MetadataField.textOf floatText ((found.map Json.string).getD .null) = found.getD [] := by
  cases found <;> rfl

/-- The tag lookup, on every document of the shape for which `metadata_from_file` returns. A
number under `format` counts as its JSON text. -/
theorem metadataFromFile_tags (exec : Bytes → Except Exn (Int × Bytes))
    (parse : Bytes → Except Exn Json) {filename text : Bytes} {res : ProbedMetadata}
    (probed : exec filename = .ok (0, text)) (parsed : parse text = .ok doc)
    (shape : FfprobeShape doc format tags)
    (returns : metadataFromFile outside floatText exec parse filename = .ok res) :
    (∃ found, LooksUp (str "title") tags found ∧ res.title = found.getD []) ∧
    (∃ found, LooksUp (str "album") tags found ∧ res.album = found.getD []) ∧
    (∃ found, LooksUp (str "artist") tags found ∧ res.artist = found.getD []) ∧
    (∃ found, LooksUp (str "date") tags found ∧ res.date = found.getD []) ∧
    (∃ found, LooksUp (str "format_name") format found ∧
      res.format = (found.map (MetadataField.textOf floatText)).getD []) ∧
    (∀ doc' tags', FfprobeShape doc' format tags' → SameTags tags tags' →
      metadataFromDocument outside floatText doc' = .ok res) ∧
    ∀ order, order.Perm MetadataField.all →
      (flaten doc).bind (extractFields outside floatText order) = .ok res := by
  obtain ⟨data, flat, entries⟩ := shape.flaten
  have document : metadataFromDocument outside floatText doc = .ok res := by
    rw [metadataFromFile, probed, Except.bind, if_pos rfl, parsed] at returns
    exact returns
  have reads := document
  rw [document_eq outside floatText flat] at reads
  obtain ⟨⟨title, album, artist, date, format_eq⟩, -⟩ := (readFields_all outside floatText).mp reads
  have tag (name : Bytes) : ∃ found, LooksUp name tags found ∧
      MetadataField.textOf floatText (getJson (tagKey name) data).1 = found.getD [] := by
    obtain ⟨found, looked_up, leaf⟩ := first_looksUp (v := Json.string)
      fun key value matched => find_tag shape entries matched
    exact ⟨found, looked_up, (congrArg _ leaf).trans (text_of_found floatText found)⟩
  refine ⟨title ▸ tag (str "title"), album ▸ tag (str "album"), artist ▸ tag (str "artist"),
    date ▸ tag (str "date"), ?_, fun doc' tags' shape' same => ?_, fun order perm => ?_⟩
  · have plain : 58 ∉ str "format_name" := by decide
    obtain ⟨found, looked_up, leaf⟩ := first_looksUp (v := id)
      fun key value matched => find_format entries plain matched
    refine ⟨found, looked_up, format_eq.trans ((congrArg _ leaf).trans ?_)⟩
    cases found <;> rfl
  · obtain ⟨data', flat', entries'⟩ := shape'.flaten
    rw [document_eq outside floatText flat', ← reads]
    exact congrArg _ (funext fun f => (leaf_congr shape shape' entries entries' same f).symm)
  · have nodup : order.Nodup := perm.nodup_iff.mpr (by decide)
    have reordered := readFields_perm outside floatText perm.symm _ reads
    rw [← extractFields_eq outside floatText nodup] at reordered
    simp only [flat, Except.bind]
    exact reordered

/-- Two titles, of which the one with the capital letters has the lesser key. -/
def twoTitles : Json := .object [(str "format", .object [
  (str "format_name", .string (str "mp3")),
  (str "tags", .object [(str "TITLE", .string (str "Nocturne")),
    (str "title", .string (str "Prelude"))])])]

theorem twoTitles_shape : FfprobeShape twoTitles [(str "format_name", .string (str "mp3"))]
    [(str "TITLE", str "Nocturne"), (str "title", str "Prelude")] where
  shape := ⟨_, rfl, List.Perm.swap _ _ _⟩
  names := by decide
  keys := by decide
  plain := by
    intro e member
    rw [List.mem_singleton.mp member]
    exact ⟨by decide, by decide, trivial⟩

def twoTitlesText : Bytes := str (
  "\x7b\n    \"format\": \x7b\n        \"format_name\": \"mp3\",\n        \"tags\": \x7b\n" ++
  "            \"TITLE\": \"Nocturne\",\n            \"title\": \"Prelude\"\n" ++
  "        \x7d\n    \x7d\n\x7d")

theorem result_twoTitles (strtod : Bytes → Double) :
    Parser.result strtod twoTitlesText = .ok twoTitles := by
  have zero : Grammar.Number (str "0") := .plus (.parts .zero .none .none)
  have stored : Json.Stored twoTitles := by
    have names : str "format_name" < str "tags" := by decide
    have keys : str "TITLE" < str "title" := by decide
    simp [twoTitles, Json.Stored, Json.StoredFields, names, keys]
  have written : twoTitles.dumpAt (fun _ => str "0") true 4 0 = twoTitlesText := by decide +kernel
  have value := @Json.value_dumpAt (fun _ => str "0") strtod true 4 (fun _ _ => zero) 0 twoTitles stored
  rw [written] at value
  exact Parser.result_of_document (Parser.document_value value)

theorem metadataFromFile_tags_twoTitles :
    metadataFromFile (fun _ => 0) (fun _ => []) (fun _ => .ok (0, twoTitlesText))
        (Parser.result fun _ => .ofRat 0) (str "a.mp3") =
      .ok { title := str "Nocturne", format := str "mp3" } ∧
    LooksUp (str "title") [(str "TITLE", str "Nocturne"), (str "title", str "Prelude")]
      (some (str "Nocturne")) ∧
    LooksUp (str "album") [(str "TITLE", str "Nocturne"), (str "title", str "Prelude")] none := by
  have parsed := result_twoTitles fun _ => .ofRat 0
  have returns : metadataFromFile (fun _ => 0) (fun _ => []) (fun _ => .ok (0, twoTitlesText))
      (Parser.result fun _ => .ofRat 0) (str "a.mp3") =
        .ok { title := str "Nocturne", format := str "mp3" } := by
    rw [metadataFromFile, Except.bind, if_pos rfl, parsed]
    rfl
  obtain ⟨⟨title, ofTitle, same⟩, ⟨album, ofAlbum, empty⟩, _⟩ := metadataFromFile_tags (fun _ => 0)
    (fun _ => []) (fun _ => .ok (0, twoTitlesText)) _ rfl parsed twoTitles_shape returns
  have present : title = some (str "Nocturne") := by
    cases title with
    | none => exact absurd same (by decide)
    | some title => exact congrArg some same.symm
  have absent : album = none := by
    cases album with
    | none => rfl
    | some album =>
      obtain ⟨key, member, name, _⟩ := ofAlbum
      simp only [List.mem_cons, Prod.mk.injEq, List.not_mem_nil, or_false] at member
      rcases member with ⟨rfl, _⟩ | ⟨rfl, _⟩ <;> exact absurd name (by unfold SameName; decide)
  rw [present] at ofTitle
  rw [absent] at ofAlbum
  exact ⟨returns, ofTitle, ofAlbum⟩

end Documents

end HttpAudioServer

import HttpAudioServer.EndOfStream
import HttpAudioServer.JsonText

/-! The texts that the page shows for a track. The server writes them as UTF-8, and the page
makes a character of each byte. -/
namespace HttpAudioServer

open Javascript

/-- What is left to the script engine: with how many arguments a function can be called, and the
number that a literal stands for. -/
structure Engine where
  maxArguments : Nat
  number : JsString → Rat

/-- `String.fromCharCode.apply` gets an argument for each byte, and throws if they are too many. -/
def arrayBufToString (engine : Engine) (buf : Bytes) : Option JsString :=
  if buf.length ≤ engine.maxArguments then some (ofBytes buf) else none

/-- What `next_chunk` adds to the metadata of the page, if nothing is thrown. -/
def pageMetadata (engine : Engine) (payload : Bytes) : Option (List Value) :=
  ((arrayBufToString engine payload).bind jsonParse).map fun
    | .array items => items
    | item => [item]

structure Labels where
  filename : Option Value
  title : Option Value
  artist : Option Value
  album : Option Value
  date : Option Value
  format : Option Value

def updateInfo (data : Value) : Labels where
  filename := data.get "filename"
  title := (data.get "meta").bind fun m => m.get "title"
  artist := (data.get "meta").bind fun m => m.get "artist"
  album := (data.get "meta").bind fun m => m.get "album"
  date := (data.get "meta").bind fun m => m.get "date"
  format := (data.get "meta").bind fun m => m.get "format"

/-- A record whose strings are texts. -/
structure Track where
  start : Rat
  filename : String
  title : String
  artist : String
  album : String
  date : String
  format : String
  trackNumber : Int := -1
  trackTotal : Int := -1
  discNumber : Int := -1
  discTotal : Int := -1
  duration : Double := .ofRat (-1)

namespace Track

def record (t : Track) : Record where
  start := t.start
  filename := str t.filename
  metadata := {
    title := str t.title
    album := str t.album
    artist := str t.artist
    date := str t.date
    format := str t.format
    trackNumber := t.trackNumber
    trackTotal := t.trackTotal
    discNumber := t.discNumber
    discTotal := t.discTotal
    duration := t.duration }

def labels (t : Track) : Labels where
  filename := some (.string (ofText t.filename))
  title := some (.string (ofText t.title))
  artist := some (.string (ofText t.artist))
  album := some (.string (ofText t.album))
  date := some (.string (ofText t.date))
  format := some (.string (ofText t.format))

def texts (t : Track) : List String := [t.filename, t.title, t.artist, t.album, t.date, t.format]

end Track

def Ascii (text : String) : Prop := ∀ c ∈ text.toList, c.toNat < 128

instance (text : String) : Decidable (Ascii text) :=
  List.decidableBAll (fun c : Char => c.toNat < 128) _

theorem ofBytes_str_iff (text : String) : ofBytes (str text) = ofText text ↔ Ascii text :=
  ofBytes_utf8_iff text.toList

theorem get_record (floatText : Rat → Bytes) (r : Record) :
    (r.toJson.read floatText).get "filename" = some (.string (ofBytes r.filename)) ∧
    (r.toJson.read floatText).get "meta" = some (r.metadata.toJson.read floatText) := by
  rw [Record.toJson_sorted]
  exact ⟨rfl, rfl⟩

theorem get_metadata (floatText : Rat → Bytes) (m : Metadata) :
    (m.toJson.read floatText).get "title" = some (.string (ofBytes m.title)) ∧
    (m.toJson.read floatText).get "artist" = some (.string (ofBytes m.artist)) ∧
    (m.toJson.read floatText).get "album" = some (.string (ofBytes m.album)) ∧
    (m.toJson.read floatText).get "date" = some (.string (ofBytes m.date)) ∧
    (m.toJson.read floatText).get "format" = some (.string (ofBytes m.format)) := by
  rw [Metadata.toJson_sorted]
  exact ⟨rfl, rfl, rfl, rfl, rfl⟩

theorem updateInfo_record (floatText : Rat → Bytes) (r : Record) :
    updateInfo (r.toJson.read floatText) =
      ⟨some (.string (ofBytes r.filename)), some (.string (ofBytes r.metadata.title)),
        some (.string (ofBytes r.metadata.artist)), some (.string (ofBytes r.metadata.album)),
        some (.string (ofBytes r.metadata.date)), some (.string (ofBytes r.metadata.format))⟩ := by
  obtain ⟨filename, metadata⟩ := get_record floatText r
  obtain ⟨title, artist, album, date, format⟩ := get_metadata floatText r.metadata
  simp only [updateInfo, filename, metadata, Option.bind_some, title, artist, album, date, format]

/-- The page reads the metadata of an answer that is not too long: one item for each record, in
order. -/
theorem pageMetadata_smeta (engine : Engine) {floatText : Rat → Bytes}
    (numbers : ∀ x, x ≠ 0 → isNumber (ofBytes (floatText x)) = true) (records : List Record) :
    pageMetadata engine (Stream.smeta floatText records) =
      if (Stream.smeta floatText records).length ≤ engine.maxArguments then
        some (records.map fun r => r.toJson.read floatText)
      else none := by
  have items : ∀ js : List Json, Json.readItems floatText js = js.map (Json.read floatText) := by
    intro js
    induction js with
    | nil => rfl
    | cons j js ih => rw [Json.readItems, ih, List.map_cons]
  unfold pageMetadata arrayBufToString
  split
  · rw [Option.bind_some, Stream.smeta, Json.jsonParse_dump numbers, Option.map_some]
    simp only [Json.read, items, List.map_map]
    rfl
  · rfl

theorem nextChunk_metadata (engine : Engine) (page : Page) {floatText : Rat → Bytes}
    {records : List Record} {data : Bytes} (fits : Fits floatText records data)
    (numbers : ∀ x, x ≠ 0 → isNumber (ofBytes (floatText x)) = true)
    (short : (Stream.smeta floatText records).length ≤ engine.maxArguments) :
    ∃ next, page.nextChunk (Stream.segments floatText records data) = some next ∧
      next.metadata.map (pageMetadata engine) = page.metadata.map (pageMetadata engine) ++
        [some (records.map fun r => r.toJson.read floatText)] := by
  refine ⟨_, nextChunk_answer page fits, ?_⟩
  have read := pageMetadata_smeta engine numbers records
  rw [if_pos short] at read
  rw [← read]
  split <;> exact List.map_append

theorem updateInfo_iff (floatText : Rat → Bytes) (t : Track) :
    updateInfo (t.record.toJson.read floatText) = t.labels ↔ ∀ text ∈ t.texts, Ascii text := by
  rw [updateInfo_record]
  simp only [Track.labels, Track.record, Track.texts, Labels.mk.injEq, Option.some.injEq,
    Value.string.injEq, ofBytes_str_iff, List.forall_mem_cons, List.not_mem_nil, false_implies,
    implies_true, and_true]

/-- For every list of tracks the page finds the texts that the server has written exactly if these
are all ASCII and the text of the list has no more bytes than a function can have arguments. Such a
list is read whole also where texts are garbled. All that is asked of the printed doubles is that
they are numbers of JSON. -/
theorem titles_shown_iff (engine : Engine) (floatText : Rat → Bytes)
    (numbers : ∀ x, x ≠ 0 → isNumber (ofBytes (floatText x)) = true) (tracks : List Track) :
    ((∃ items, pageMetadata engine (Stream.smeta floatText (tracks.map Track.record)) = some items ∧
        items.length = tracks.length) ↔
      (Stream.smeta floatText (tracks.map Track.record)).length ≤ engine.maxArguments) ∧
    ((∃ items, pageMetadata engine (Stream.smeta floatText (tracks.map Track.record)) = some items ∧
        items.map updateInfo = tracks.map Track.labels) ↔
      (∀ t ∈ tracks, ∀ text ∈ t.texts, Ascii text) ∧
        (Stream.smeta floatText (tracks.map Track.record)).length ≤ engine.maxArguments) := by
  rw [pageMetadata_smeta engine numbers]
  have texts : ((tracks.map Track.record).map fun r => r.toJson.read floatText).map updateInfo =
      tracks.map Track.labels ↔ ∀ t ∈ tracks, ∀ text ∈ t.texts, Ascii text := by
    rw [List.map_map, List.map_map, List.map_inj_left]
    exact forall₂_congr fun t _ => updateInfo_iff floatText t
  split
  · rename_i short
    simp only [Option.some.injEq, exists_eq_left', texts, short, and_true, iff_true]
    simp
  · rename_i long
    simp [long]

def titled (title : String) : Track where
  start := 0
  filename := ""
  title := title
  artist := ""
  album := ""
  date := ""
  format := ""

theorem minusOne_number (x : Rat) : isNumber (ofBytes (Stream.minusOne x)) = true := rfl

/-- An engine that takes 65536 arguments. No literal is looked at. -/
def sampleEngine : Engine := ⟨65536, fun _ => 0⟩

theorem titles_shown_iff_ascii :
    ∃ items, pageMetadata sampleEngine
        (Stream.smeta Stream.minusOne [(titled "Nocturne").record, (titled "Prelude").record]) =
        some items ∧ items.map updateInfo = [(titled "Nocturne").labels, (titled "Prelude").labels] := by
  have read := titles_shown_iff sampleEngine Stream.minusOne (fun x _ => minusOne_number x)
    [titled "Nocturne", titled "Prelude"]
  refine read.2.mpr ⟨?_, by decide +kernel⟩
  intro t member
  simp only [List.mem_cons, List.not_mem_nil, or_false] at member
  rcases member with rfl | rfl <;> decide

/-- The bytes of `é` become two characters. -/
theorem title_is_garbled :
    ∃ items, pageMetadata sampleEngine (Stream.smeta Stream.minusOne [(titled "é").record]) =
        some items ∧
      items.map (fun data => (updateInfo data).title) = [some (.string (ofText "Ã©"))] ∧
      items.map updateInfo ≠ [(titled "é").labels] := by
  have read := pageMetadata_smeta sampleEngine (fun x _ => minusOne_number x)
    [(titled "é").record]
  rw [if_pos (by decide +kernel)] at read
  refine ⟨_, read, rfl, ?_⟩
  intro same
  have titles := congrArg (List.map Labels.title) same
  have garbled : ofBytes (str "é") = ofText "é" :=
    Value.string.inj (Option.some.inj (List.cons.inj titles).1)
  exact absurd garbled (by decide)

end HttpAudioServer

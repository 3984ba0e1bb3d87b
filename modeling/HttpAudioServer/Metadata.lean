import HttpAudioServer.Library.OrderedMap
import HttpAudioServer.Library.Regex
import HttpAudioServer.Numerals

/-! What is read from the output of ffprobe: the document as one flat map, and the fields taken
out of it one after the other. -/
namespace HttpAudioServer

open FloatingPoint

abbrev Leaves := OrderedMap Bytes Json

/-- `prefix.empty() ? it.key() : prefix + "::" + it.key()` -/
def tarKey (pre key : Bytes) : Bytes := if pre = [] then key else pre ++ str "::" ++ key

mutual

/-- A value of an object, once its key is known. -/
def flatenValue (key : Bytes) (tar : Leaves) : Json → Leaves
  | .object fields => flatenFields key tar fields
  | .null => tar.emplace key .null
  | .boolean b => tar.emplace key (.boolean b)
  | .integer i => tar.emplace key (.integer i)
  | .float x => tar.emplace key (.float x)
  | .string s => tar.emplace key (.string s)
  | .array items => tar.emplace key (.array items)

def flatenFields (pre : Bytes) (tar : Leaves) : List (Bytes × Json) → Leaves
  | [] => tar
  | (key, value) :: fields => flatenFields pre (flatenValue (tarKey pre key) tar value) fields

end

/-- Elements that are not in an object have no key. -/
def flaten : Json → Except Exn Leaves
  | .object fields => .ok (flatenFields [] .empty fields)
  | .null | .array [] => .ok .empty
  | _ => .error ⟨"cannot use key() for non-object iterators"⟩

/-- `std::regex_match`, for an expression without special characters and with `icase`. -/
def regexMatch (pattern key : Bytes) : Bool := key.map tolower = pattern.map tolower

theorem regexMatch_iff {pattern key : Bytes} :
    regexMatch pattern key = true ↔ (Regex.Expr.literal tolower pattern).Matches key [] := by
  simp [Regex.Expr.matches_literal, regexMatch]

/-- The first entry that matches is taken out of the map. -/
def getJson (pattern : Bytes) (data : Leaves) : Json × Leaves :=
  match data.first (regexMatch pattern) with
  | some (key, res) => (res, data.erase key)
  | none => (.null, data)

section Getters

variable (outside : Value → Int) (floatText : Rat → Bytes)

/-- `T` is the type of the field, with the conversions of an `int` and of a `long double`. -/
def getNumber {T : Type} (ofInt : Int → T) (ofLongDouble : Value → T) (pattern : Bytes)
    (data : Leaves) (defaultValue : T) : Except Exn (T × Leaves) :=
  let (j, data) := getJson pattern data
  match j with
  | .integer i => .ok (ofInt (wrapInt i), data)
  | .float x => .ok (ofInt (castInt outside (.finite x.value)), data)
  | .string s => (stold s).map fun x => (ofLongDouble x, data)
  | _ => .ok (defaultValue, data)

def getInt : Bytes → Leaves → Int → Except Exn (Int × Leaves) :=
  getNumber outside id (castInt outside)

def getDouble : Bytes → Leaves → Value → Except Exn (Value × Leaves) :=
  getNumber outside (fun i => .finite i) castDouble

def getString (pattern : Bytes) (data : Leaves) : Bytes × Leaves :=
  let (j, data) := getJson pattern data
  match j with
  | .null => ([], data)
  | .string s => (s, data)
  | j => (j.dump floatText, data)

end Getters

/-- As `Metadata`, with a duration that need not be finite. -/
structure ProbedMetadata where
  title : Bytes := []
  album : Bytes := []
  artist : Bytes := []
  date : Bytes := []
  format : Bytes := []
  trackNumber : Int := -1
  trackTotal : Int := -1
  discNumber : Int := -1
  discTotal : Int := -1
  duration : Value := .finite (-1)

inductive MetadataField where
  | title
  | album
  | artist
  | date
  | format
  | trackNumber
  | trackTotal
  | discNumber
  | discTotal
  | duration
deriving DecidableEq

namespace MetadataField

def pattern : MetadataField → Bytes
  | title => str "format::tags::title"
  | album => str "format::tags::album"
  | artist => str "format::tags::artist"
  | date => str "format::tags::date"
  | format => str "format::format_name"
  | trackNumber => str "format::tags::track"
  | trackTotal => str "format::tags::track_total"
  | discNumber => str "format::tags::disc"
  | discTotal => str "format::tags::disc_total"
  | duration => str "format::duration"

def all : List MetadataField :=
  [title, album, artist, date, format, trackNumber, trackTotal, discNumber, discTotal, duration]

section Extract

variable (outside : Value → Int) (floatText : Rat → Bytes)

/-- A statement of `metadata_from_file`, such as `res.title = get_string(...)`. -/
def extract (f : MetadataField) (res : ProbedMetadata) (data : Leaves) :
    Except Exn (ProbedMetadata × Leaves) :=
  let text := getString floatText f.pattern data
  let int := getInt outside f.pattern data (-1)
  match f with
  | title => .ok ({ res with title := text.1 }, text.2)
  | album => .ok ({ res with album := text.1 }, text.2)
  | artist => .ok ({ res with artist := text.1 }, text.2)
  | date => .ok ({ res with date := text.1 }, text.2)
  | format => .ok ({ res with format := text.1 }, text.2)
  | trackNumber => int.map fun n => ({ res with trackNumber := n.1 }, n.2)
  | trackTotal => int.map fun n => ({ res with trackTotal := n.1 }, n.2)
  | discNumber => int.map fun n => ({ res with discNumber := n.1 }, n.2)
  | discTotal => int.map fun n => ({ res with discTotal := n.1 }, n.2)
  | duration =>
    (getDouble outside f.pattern data (.finite (-1))).map fun x => ({ res with duration := x.1 }, x.2)

end Extract

end MetadataField

section Extraction

variable (outside : Value → Int) (floatText : Rat → Bytes)

def extractFields (order : List MetadataField) (data : Leaves) : Except Exn ProbedMetadata :=
  (order.foldlM (fun s (f : MetadataField) => f.extract outside floatText s.1 s.2)
    (({} : ProbedMetadata), data)).map Prod.fst

def metadataFromDocument (doc : Json) : Except Exn ProbedMetadata :=
  (flaten doc).bind (extractFields outside floatText MetadataField.all)

/-- `exec` gives the exit code of ffprobe and what it writes. -/
def metadataFromFile (exec : Bytes → Except Exn (Int × Bytes)) (parse : Bytes → Except Exn Json)
    (filename : Bytes) : Except Exn ProbedMetadata :=
  (exec filename).bind fun pres =>
    if pres.1 = 0 then (parse pres.2).bind (metadataFromDocument outside floatText)
    else .ok {}

end Extraction

end HttpAudioServer

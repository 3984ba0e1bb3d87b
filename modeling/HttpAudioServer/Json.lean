import HttpAudioServer.Decoder
import Mathlib.Data.Rat.Defs

/-! JSON values and their serialisation. A `std::string` is its bytes. A `double` is finite, and the
text printed for it is a parameter of the model. -/
namespace HttpAudioServer

def str (s : String) : Bytes := s.toList.flatMap String.utf8EncodeChar

/-- The rational that it stands for, and its sign bit, which only a zero has to itself. -/
structure Double where
  value : Rat
  signbit : Bool
  signed : value ≠ 0 → signbit = decide (value < 0)
deriving DecidableEq, Repr

namespace Double

def ofRat (x : Rat) : Double := ⟨x, decide (x < 0), fun _ => rfl⟩

instance : Coe Rat Double := ⟨ofRat⟩

def negativeZero : Double := ⟨0, true, fun other => absurd rfl other⟩

end Double

/-- The fields of an object are a `std::map`: in byte order of their keys. -/
inductive Json where
  | null
  | boolean (b : Bool)
  | integer (i : Int)
  | float (x : Double)
  | string (s : Bytes)
  | array (items : List Json)
  | object (fields : List (Bytes × Json))

namespace Json

/-- `operator[]` followed by an assignment. -/
def insertField (key : Bytes) (value : Json) : List (Bytes × Json) → List (Bytes × Json)
  | [] => [(key, value)]
  | (k, v) :: fields =>
    if key < k then (key, value) :: (k, v) :: fields
    else if key = k then (key, value) :: fields
    else (k, v) :: insertField key value fields

def ofFields (fields : List (Bytes × Json)) : Json :=
  .object (fields.foldl (fun o field => insertField field.1 field.2 o) [])

def hexify (n : UInt8) : UInt8 := if n < 10 then 48 + n else 87 + n

def escapeByte (c : UInt8) : Bytes :=
  if c = 34 then str "\\\""
  else if c = 92 then str "\\\\"
  else if c = 8 then str "\\b"
  else if c = 12 then str "\\f"
  else if c = 10 then str "\\n"
  else if c = 13 then str "\\r"
  else if c = 9 then str "\\t"
  else if c ≤ 31 then str "\\u00" ++ [hexify (c >>> 4), hexify (c &&& 15)]
  else [c]

/-- `escape_string`: bytes from `0x80` on are negative `char`s there and go out as they are. -/
def escapeString (s : Bytes) : Bytes := s.flatMap escapeByte

theorem escapeString_plain {s : Bytes} (plain : ∀ b ∈ s, escapeByte b = [b]) :
    escapeString s = s := by
  induction s with
  | nil => rfl
  | cons b s ih =>
    rw [escapeString, List.flatMap_cons, plain b List.mem_cons_self]
    exact congrArg (b :: ·) (ih fun x member => plain x (List.mem_cons_of_mem _ member))

section Dump

variable (floatText : Rat → Bytes) (prettyPrint : Bool) (indentStep : Nat)

def spaces (n : Nat) : Bytes := List.replicate n 32

mutual

/-- The internal `dump`; `indent` is the current indentation. -/
def dumpAt (indent : Nat) : Json → Bytes
  | .null => str "null"
  | .boolean b => if b then str "true" else str "false"
  | .integer i => str (toString i)
  | .float x =>
    -- special case for zero to get "0.0"/"-0.0"
    if x.value = 0 then (if x.signbit then str "-0.0" else str "0.0") else floatText x.value
  | .string s => str "\"" ++ escapeString s ++ str "\""
  | .array [] => str "[]"
  | .array (item :: items) =>
    let newIndent := if prettyPrint then indent + indentStep else indent
    str "[" ++ (if prettyPrint then str "\n" else []) ++
      spaces newIndent ++ dumpAt newIndent item ++ dumpItems newIndent items ++
      (if prettyPrint then str "\n" else []) ++ spaces indent ++ str "]"
  | .object [] => str "\x7b\x7d"
  | .object ((key, value) :: fields) =>
    let newIndent := if prettyPrint then indent + indentStep else indent
    str "\x7b" ++ (if prettyPrint then str "\n" else []) ++
      spaces newIndent ++ str "\"" ++ escapeString key ++ str "\":" ++
      (if prettyPrint then str " " else []) ++ dumpAt newIndent value ++
      dumpFields newIndent fields ++
      (if prettyPrint then str "\n" else []) ++ spaces indent ++ str "\x7d"

def dumpItems (indent : Nat) : List Json → Bytes
  | [] => []
  | item :: items =>
    (if prettyPrint then str ",\n" else str ",") ++ spaces indent ++ dumpAt indent item ++
      dumpItems indent items

def dumpFields (indent : Nat) : List (Bytes × Json) → Bytes
  | [] => []
  | (key, value) :: fields =>
    (if prettyPrint then str ",\n" else str ",") ++
      spaces indent ++ str "\"" ++ escapeString key ++ str "\":" ++
      (if prettyPrint then str " " else []) ++ dumpAt indent value ++ dumpFields indent fields

end

end Dump

/-- `dump()` without an argument: the compact form. -/
def dump (floatText : Rat → Bytes) (j : Json) : Bytes := j.dumpAt floatText false 0 0

/-- What `os << std::setw(4) << j` writes. -/
def dumpPretty (floatText : Rat → Bytes) (j : Json) : Bytes := j.dumpAt floatText true 4 0

end Json

/-- What ffprobe told about a file. The integers are `int`s and `duration` is a `double`. -/
structure Metadata where
  title : Bytes
  album : Bytes
  artist : Bytes
  date : Bytes
  format : Bytes
  trackNumber : Int := -1
  trackTotal : Int := -1
  discNumber : Int := -1
  discTotal : Int := -1
  duration : Double := .ofRat (-1)
deriving DecidableEq, Repr

def Metadata.unknown : Metadata where
  title := []
  album := []
  artist := []
  date := []
  format := []

def Metadata.toJson (m : Metadata) : Json :=
  .ofFields [
    (str "title", .string m.title),
    (str "album", .string m.album),
    (str "artist", .string m.artist),
    (str "date", .string m.date),
    (str "track_number", .integer m.trackNumber),
    (str "track_total", .integer m.trackTotal),
    (str "disc_number", .integer m.discNumber),
    (str "disc_total", .integer m.discTotal),
    (str "duration", .float m.duration),
    (str "format", .string m.format)]

theorem Metadata.toJson_sorted (m : Metadata) :
    m.toJson = .object [
      (str "album", .string m.album),
      (str "artist", .string m.artist),
      (str "date", .string m.date),
      (str "disc_number", .integer m.discNumber),
      (str "disc_total", .integer m.discTotal),
      (str "duration", .float m.duration),
      (str "format", .string m.format),
      (str "title", .string m.title),
      (str "track_number", .integer m.trackNumber),
      (str "track_total", .integer m.trackTotal)] := by
  rfl

end HttpAudioServer

import HttpAudioServer.Json
import HttpAudioServer.Library.Javascript

/-! What `JSON.parse` makes of the text that `dump` writes, when each byte of the text is read as
a character. The structure and the escapes come back; a string comes back as its bytes. -/
namespace HttpAudioServer

open Javascript

namespace Json

section Read

variable (floatText : Rat → Bytes)

def numberText (x : Double) : Bytes :=
  if x.value = 0 then (if x.signbit then str "-0.0" else str "0.0") else floatText x.value

mutual

def read : Json → Value
  | .null => .null
  | .boolean b => .boolean b
  | .integer i => .number (ofBytes (str (toString i)))
  | .float x => .number (ofBytes (numberText floatText x))
  | .string s => .string (ofBytes s)
  | .array items => .array (readItems items)
  | .object fields => .object (readFields fields)

def readItems : List Json → List Value
  | [] => []
  | item :: items => read item :: readItems items

def readFields : List (Bytes × Json) → List (JsString × Value)
  | [] => []
  | (key, value) :: fields => (ofBytes key, read value) :: readFields fields

end

end Read

section Escapes

theorem codeUnit_control {c : UInt8} (control : c ≤ 31) :
    codeUnit 48 48 (hexify (c >>> 4)).toUInt16 (hexify (c &&& 15)).toUInt16 = some c.toUInt16 := by
  have all : ∀ n < 32, codeUnit 48 48 (hexify (UInt8.ofNat n >>> 4)).toUInt16
      (hexify (UInt8.ofNat n &&& 15)).toUInt16 = some (UInt8.ofNat n).toUInt16 := by decide
  have bound : c.toNat < 32 := Nat.lt_succ_of_le (UInt8.le_iff_toNat_le.mp control)
  have this := all c.toNat bound
  rwa [UInt8.ofNat_toNat] at this

theorem parseString_escapeByte (c : UInt8) (rest : JsString) :
    parseString (ofBytes (escapeByte c) ++ rest) = (parseString rest).map (push c.toUInt16) := by
  unfold escapeByte
  -- Seven bytes have an escape of two characters
  iterate 7
    split
    · subst_vars
      exact parseString_escape (by decide) rfl rest
  split
  · rename_i control
    exact parseString_unicode (codeUnit_control control) rest
  · rename_i quote backslash _ _ _ _ _ printed
    refine parseString_plain ?_ ?_ ?_ rest
    · exact fun same => quote (UInt8.toUInt16_inj.mp same)
    · exact fun same => backslash (UInt8.toUInt16_inj.mp same)
    · intro low
      have bound := UInt16.lt_iff_toNat_lt.mp low
      rw [UInt8.toNat_toUInt16] at bound
      exact printed (UInt8.le_iff_toNat_le.mpr (Nat.le_of_lt_succ bound))

theorem parseString_escapeString (s : Bytes) (rest : JsString) :
    parseString (ofBytes (escapeString s) ++ 34 :: rest) = some (ofBytes s, rest) := by
  induction s with
  | nil => exact parseString_end rest
  | cons c s ih =>
    rw [escapeString, List.flatMap_cons, ofBytes_append, List.append_assoc,
      parseString_escapeByte]
    rw [escapeString] at ih
    rw [ih]
    rfl

end Escapes

section Integers

theorem digit_steps {d : Nat} (digit : d < 10) :
    (ofBytes (String.utf8EncodeChar (Nat.digitChar d))).foldlM NumberState.next .integer =
      some .integer := by
  have all : ∀ d < 10, (ofBytes (String.utf8EncodeChar (Nat.digitChar d))).foldlM
      NumberState.next .integer = some .integer := by decide
  exact all d digit

theorem first_digit_steps {q : NumberState} (before : q = .start ∨ q = .minus) {d : Nat}
    (positive : 0 < d) (digit : d < 10) :
    (ofBytes (String.utf8EncodeChar (Nat.digitChar d))).foldlM NumberState.next q =
      some .integer := by
  have all : ∀ q ∈ [NumberState.start, .minus], ∀ d < 10, 0 < d →
      (ofBytes (String.utf8EncodeChar (Nat.digitChar d))).foldlM NumberState.next q =
        some .integer := by decide
  exact all q (by simpa using before) d digit positive

theorem digits_steps {q : NumberState} (before : q = .start ∨ q = .minus) {n : Nat}
    (positive : 0 < n) :
    (ofBytes ((Nat.toDigits 10 n).flatMap String.utf8EncodeChar)).foldlM NumberState.next q =
      some .integer := by
  induction n using Nat.strong_induction_on with
  | _ n ih =>
    by_cases one : n < 10
    · rw [Nat.toDigits_of_lt_base one, List.flatMap_singleton]
      exact first_digit_steps before positive one
    · rw [Nat.toDigits_of_base_le (by decide) (Nat.le_of_not_lt one), List.flatMap_append,
        ofBytes_append, List.foldlM_append, ih (n / 10) (by omega) (by omega),
        List.flatMap_singleton]
      exact digit_steps (Nat.mod_lt _ (by decide))

theorem isNumber_integer (i : Int) : isNumber (ofBytes (str (toString i))) = true := by
  rw [isNumber_iff]
  cases i with
  | ofNat n =>
    have text : str (toString (Int.ofNat n)) =
        (Nat.toDigits 10 n).flatMap String.utf8EncodeChar :=
      congrArg (List.flatMap String.utf8EncodeChar) Nat.toList_repr
    rw [text]
    cases n with
    | zero => exact ⟨.zero, rfl, rfl⟩
    | succ n => exact ⟨.integer, digits_steps (.inl rfl) (Nat.succ_pos n), rfl⟩
  | negSucc n =>
    have text : str (toString (Int.negSucc n)) =
        45 :: (Nat.toDigits 10 (n + 1)).flatMap String.utf8EncodeChar := by
      have written : (toString (Int.negSucc n)).toList = '-' :: Nat.toDigits 10 (n + 1) := by
        rw [← Nat.toList_repr]
        exact String.toList_append
      rw [str, written]
      rfl
    rw [text]
    exact ⟨.integer, digits_steps (.inr rfl) (Nat.succ_pos n), rfl⟩

end Integers

section Text

variable (floatText : Rat → Bytes)

theorem dump_array (item : Json) (items : List Json) :
    (array (item :: items)).dump floatText =
      91 :: (item.dump floatText ++ dumpItems floatText false 0 0 items ++ [93]) := by
  simp [dump, dumpAt, spaces, str, String.utf8EncodeChar]

theorem dumpItems_cons (item : Json) (items : List Json) :
    dumpItems floatText false 0 0 (item :: items) =
      44 :: (item.dump floatText ++ dumpItems floatText false 0 0 items) := by
  simp [dump, dumpItems, spaces, str, String.utf8EncodeChar]

theorem dump_object (key : Bytes) (value : Json) (fields : List (Bytes × Json)) :
    (object ((key, value) :: fields)).dump floatText =
      123 :: 34 :: (escapeString key ++ 34 :: 58 :: (value.dump floatText ++
        dumpFields floatText false 0 0 fields ++ [125])) := by
  simp [dump, dumpAt, spaces, str, String.utf8EncodeChar]

theorem dumpFields_cons (key : Bytes) (value : Json) (fields : List (Bytes × Json)) :
    dumpFields floatText false 0 0 ((key, value) :: fields) =
      44 :: 34 :: (escapeString key ++ 34 :: 58 :: (value.dump floatText ++
        dumpFields floatText false 0 0 fields)) := by
  simp [dump, dumpFields, spaces, str, String.utf8EncodeChar]

theorem dump_string (s : Bytes) :
    (string s).dump floatText = 34 :: (escapeString s ++ [34]) := by
  simp [dump, dumpAt, str, String.utf8EncodeChar]

end Text

section RoundTrip

variable {floatText : Rat → Bytes}
  (numbers : ∀ x, x ≠ 0 → isNumber (ofBytes (floatText x)) = true)

include numbers

theorem isNumber_float (x : Double) : isNumber (ofBytes (numberText floatText x)) = true := by
  unfold numberText
  split
  · split <;> decide
  · rename_i other
    exact numbers x.value other

theorem dump_starts (j : Json) : ∃ c more, ofBytes (j.dump floatText) = c :: more ∧
    isSpace c = false ∧ c ≠ 93 := by
  have number : ∀ literal, isNumber literal = true → ∃ c more, literal = c :: more ∧
      isSpace c = false ∧ c ≠ 93 := by
    intro literal number
    obtain ⟨c, more, rfl, starts⟩ := isNumber_cons number
    refine ⟨c, more, rfl, ?_, ?_⟩
    · exact not_space_of_numberChar starts
    · rintro rfl
      exact absurd starts (by decide)
  cases j with
  | null => exact ⟨110, _, rfl, by decide, by decide⟩
  | boolean b => cases b <;> exact ⟨_, _, rfl, by decide, by decide⟩
  | integer i => exact number _ (isNumber_integer i)
  | float x => exact number _ (isNumber_float numbers x)
  | string s => exact ⟨34, _, congrArg ofBytes (dump_string floatText s), by decide, by decide⟩
  | array items =>
    cases items with
    | nil => exact ⟨91, _, rfl, by decide, by decide⟩
    | cons item items => exact ⟨91, _, congrArg ofBytes (dump_array floatText item items), by decide,
        by decide⟩
  | object fields =>
    cases fields with
    | nil => exact ⟨123, _, rfl, by decide, by decide⟩
    | cons field fields =>
      exact ⟨123, _, congrArg ofBytes (dump_object floatText field.1 field.2 fields), by decide,
        by decide⟩

theorem dump_nonempty (j : Json) : 0 < (j.dump floatText).length := by
  obtain ⟨c, more, starts, _⟩ := dump_starts numbers j
  rw [← length_ofBytes, starts]
  exact Nat.succ_pos _

omit numbers in
theorem follows_cons {c : UInt16} (other : numberChar c = false) (s : JsString) :
    Follows (c :: s) := by
  intro d t same
  cases same
  exact other

/-- With fuel for its characters a text is read back, whatever comes after it: the text of a
value, that of the items of an array and that of the members of an object. -/
structure Reads (floatText : Rat → Bytes) (fuel : Nat) : Prop where
  value : ∀ (j : Json) (rest : JsString), 2 * (j.dump floatText).length ≤ fuel → Follows rest →
    parseValue fuel (ofBytes (j.dump floatText) ++ rest) = some (j.read floatText, rest)
  items : ∀ (item : Json) (items : List Json) (rest : JsString),
    2 * ((item.dump floatText).length + (dumpItems floatText false 0 0 items).length) + 1 ≤ fuel →
    parseItems fuel (ofBytes (item.dump floatText) ++
        (ofBytes (dumpItems floatText false 0 0 items) ++ 93 :: rest)) =
      some (item.read floatText :: readItems floatText items, rest)
  members : ∀ (key : Bytes) (value : Json) (fields : List (Bytes × Json)) (rest : JsString),
    2 * ((value.dump floatText).length + (dumpFields floatText false 0 0 fields).length) + 1 ≤
      fuel →
    parseMembers fuel (34 :: (ofBytes (escapeString key) ++ 34 :: 58 ::
        (ofBytes (value.dump floatText) ++
          (ofBytes (dumpFields floatText false 0 0 fields) ++ 125 :: rest)))) =
      some ((ofBytes key, value.read floatText) :: readFields floatText fields, rest)

theorem Reads.value_succ {fuel : Nat} (reads : Reads floatText fuel) (j : Json) (rest : JsString)
    (enough : 2 * (j.dump floatText).length ≤ fuel + 1) (follows : Follows rest) :
    parseValue (fuel + 1) (ofBytes (j.dump floatText) ++ rest) =
      some (j.read floatText, rest) := by
  cases j with
  | null => rfl
  | boolean b => cases b <;> rfl
  | integer i => exact parseValue_number (isNumber_integer i) follows
  | float x => exact parseValue_number (isNumber_float numbers x) follows
  | string s =>
    have text : ofBytes ((string s).dump floatText) ++ rest =
        34 :: (ofBytes (escapeString s) ++ 34 :: rest) := by
      simp [dump_string]
    rw [text, parseValue_string, parseString_escapeString]
    rfl
  | array items =>
    cases items with
    | nil => exact parseValue_emptyArray
    | cons item items =>
      have text : ofBytes ((array (item :: items)).dump floatText) ++ rest =
          91 :: (ofBytes (item.dump floatText) ++
            (ofBytes (dumpItems floatText false 0 0 items) ++ 93 :: rest)) := by
        simp [dump_array]
      have length := congrArg List.length (dump_array floatText item items)
      simp only [List.length_cons, List.length_append] at length
      have inside := reads.items item items rest (by omega)
      obtain ⟨c, more, starts, visible, other⟩ := dump_starts numbers item
      rw [text, starts, List.cons_append, parseValue_array visible other, ← List.cons_append,
        ← starts, inside]
      rfl
  | object fields =>
    cases fields with
    | nil => exact parseValue_emptyObject
    | cons field fields =>
      obtain ⟨key, value⟩ := field
      have text : ofBytes ((object ((key, value) :: fields)).dump floatText) ++ rest =
          123 :: 34 :: (ofBytes (escapeString key) ++ 34 :: 58 ::
            (ofBytes (value.dump floatText) ++
              (ofBytes (dumpFields floatText false 0 0 fields) ++ 125 :: rest))) := by
        simp [dump_object]
      have length := congrArg List.length (dump_object floatText key value fields)
      simp only [List.length_cons, List.length_append] at length
      have inside := reads.members key value fields rest (by omega)
      rw [text, parseValue_object, inside]
      rfl

omit numbers in
theorem Reads.items_succ {fuel : Nat} (reads : Reads floatText fuel) (item : Json)
    (items : List Json) (rest : JsString)
    (enough : 2 * ((item.dump floatText).length +
      (dumpItems floatText false 0 0 items).length) + 1 ≤ fuel + 1) :
    parseItems (fuel + 1) (ofBytes (item.dump floatText) ++
        (ofBytes (dumpItems floatText false 0 0 items) ++ 93 :: rest)) =
      some (item.read floatText :: readItems floatText items, rest) := by
  have first := fun c s (ends : numberChar c = false) =>
    reads.value item (c :: s) (by omega) (follows_cons ends s)
  cases items with
  | nil => exact parseItems_last (first 93 rest (by decide))
  | cons next items =>
    have text : ofBytes (dumpItems floatText false 0 0 (next :: items)) ++ 93 :: rest =
        44 :: (ofBytes (next.dump floatText) ++
          (ofBytes (dumpItems floatText false 0 0 items) ++ 93 :: rest)) := by
      simp [dumpItems_cons]
    have length := congrArg List.length (dumpItems_cons floatText next items)
    simp only [List.length_cons, List.length_append] at length
    have later := reads.items next items rest (by omega)
    rw [text, parseItems_next (first 44 _ (by decide)), later]
    rfl

omit numbers in
theorem Reads.members_succ {fuel : Nat} (reads : Reads floatText fuel) (key : Bytes)
    (value : Json) (fields : List (Bytes × Json)) (rest : JsString)
    (enough : 2 * ((value.dump floatText).length +
      (dumpFields floatText false 0 0 fields).length) + 1 ≤ fuel + 1) :
    parseMembers (fuel + 1) (34 :: (ofBytes (escapeString key) ++ 34 :: 58 ::
        (ofBytes (value.dump floatText) ++
          (ofBytes (dumpFields floatText false 0 0 fields) ++ 125 :: rest)))) =
      some ((ofBytes key, value.read floatText) :: readFields floatText fields, rest) := by
  have named := fun s => parseString_escapeString key (58 :: s)
  have first := fun c s (ends : numberChar c = false) =>
    reads.value value (c :: s) (by omega) (follows_cons ends s)
  cases fields with
  | nil => exact parseMembers_last (named _) (first 125 rest (by decide))
  | cons next fields =>
    obtain ⟨key', value'⟩ := next
    have text : ofBytes (dumpFields floatText false 0 0 ((key', value') :: fields)) ++
        125 :: rest = 44 :: 34 :: (ofBytes (escapeString key') ++ 34 :: 58 ::
          (ofBytes (value'.dump floatText) ++
            (ofBytes (dumpFields floatText false 0 0 fields) ++ 125 :: rest))) := by
      simp [dumpFields_cons]
    have length := congrArg List.length (dumpFields_cons floatText key' value' fields)
    simp only [List.length_cons, List.length_append] at length
    have later := reads.members key' value' fields rest (by omega)
    rw [text, parseMembers_next (named _) (first 44 _ (by decide)), later]
    rfl

theorem reads_all (fuel : Nat) : Reads floatText fuel := by
  induction fuel with
  | zero =>
    constructor
    · intro j rest enough
      have nonempty := dump_nonempty numbers j
      omega
    · intro item items rest enough
      omega
    · intro key value fields rest enough
      omega
  | succ fuel ih => exact ⟨ih.value_succ numbers, ih.items_succ, ih.members_succ⟩

/-- The client reads every text that the server writes. -/
theorem jsonParse_dump (j : Json) :
    jsonParse (ofBytes (j.dump floatText)) = some (j.read floatText) := by
  have parsed := (reads_all numbers (2 * (ofBytes (j.dump floatText)).length + 1)).value j []
    (by rw [length_ofBytes]; omega) (fun c s same => by contradiction)
  rw [List.append_nil] at parsed
  rw [jsonParse, parsed]
  rfl

end RoundTrip

end Json

end HttpAudioServer

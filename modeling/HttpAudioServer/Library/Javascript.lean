import Mathlib.Data.List.TakeWhile
import Mathlib.Data.Option.Basic

/-! Strings of JavaScript and its `JSON.parse`. A string is its UTF-16 code units, and a number
is kept as its literal. -/
namespace Javascript

abbrev JsString := List UInt16

/-- The code units of a character: one, or a pair of surrogates. -/
def utf16 (c : Char) : JsString :=
  if c.toNat < 0x10000 then [UInt16.ofNat c.toNat]
  else
    let n := c.toNat - 0x10000
    [UInt16.ofNat (0xD800 + n / 0x400), UInt16.ofNat (0xDC00 + n % 0x400)]

def ofText (s : String) : JsString := s.toList.flatMap utf16

/-- A string made from bytes one by one: the character of each has the number of the byte. -/
def ofBytes (bytes : List UInt8) : JsString := bytes.map UInt8.toUInt16

/-- The members of an object are in the order of the text. -/
inductive Value where
  | null
  | boolean (b : Bool)
  | number (literal : JsString)
  | string (s : JsString)
  | array (items : List Value)
  | object (members : List (JsString × Value))

/-- Of two members with one name the later one counts. -/
def Value.get (name : String) : Value → Option Value
  | .object members => members.reverse.lookup (ofText name)
  | _ => none

section Numbers

def isDigit (c : UInt16) : Bool := 48 ≤ c && c ≤ 57

inductive NumberState where
  | start
  | minus
  | zero
  | integer
  | point
  | fraction
  | e
  | sign
  | exponent
deriving DecidableEq, Repr

namespace NumberState

def afterInteger (c : UInt16) : Option NumberState :=
  if c = 46 then some point else if c = 101 ∨ c = 69 then some e else none

def next : NumberState → UInt16 → Option NumberState
  | start, c =>
    if c = 45 then some minus
    else if c = 48 then some zero
    else if isDigit c then some integer
    else none
  | minus, c => if c = 48 then some zero else if isDigit c then some integer else none
  | zero, c => afterInteger c
  | integer, c => if isDigit c then some integer else afterInteger c
  | point, c => if isDigit c then some fraction else none
  | fraction, c =>
    if isDigit c then some fraction else if c = 101 ∨ c = 69 then some e else none
  | e, c => if isDigit c then some exponent else if c = 43 ∨ c = 45 then some sign else none
  | sign, c => if isDigit c then some exponent else none
  | exponent, c => if isDigit c then some exponent else none

def final : NumberState → Bool
  | zero | integer | fraction | exponent => true
  | start | minus | point | e | sign => false

end NumberState

def isNumber (literal : JsString) : Bool := (literal.foldlM NumberState.next .start).any (·.final)

/-- The characters that occur in numbers. None of them can follow one. -/
def numberChar (c : UInt16) : Bool :=
  isDigit c || c == 43 || c == 45 || c == 46 || c == 69 || c == 101

def parseNumber (s : JsString) : Option (JsString × JsString) :=
  let literal := s.takeWhile numberChar
  if isNumber literal then some (literal, s.drop literal.length) else none

end Numbers

section Strings

def hexDigit (c : UInt16) : Option UInt16 :=
  if isDigit c then some (c - 48)
  else if 65 ≤ c ∧ c ≤ 70 then some (c - 55)
  else if 97 ≤ c ∧ c ≤ 102 then some (c - 87)
  else none

def codeUnit (a b x y : UInt16) : Option UInt16 := do
  let a ← hexDigit a
  let b ← hexDigit b
  let x ← hexDigit x
  let y ← hexDigit y
  return ((a * 16 + b) * 16 + x) * 16 + y

/-- What a character stands for after a backslash. -/
def unescape (c : UInt16) : Option UInt16 :=
  [(34, 34), (92, 92), (47, 47), (98, 8), (102, 12), (110, 10), (114, 13), (116, 9)].lookup c

def push (c : UInt16) (parsed : JsString × JsString) : JsString × JsString :=
  (c :: parsed.1, parsed.2)

/-- A string after its opening quotation mark, and what follows it. -/
def parseString : JsString → Option (JsString × JsString)
  | [] => none
  | c :: s =>
    if c = 34 then some ([], s)
    else if c = 92 then
      match s with
      | [] => none
      | e :: s =>
        if e = 117 then
          match s with
          | a :: b :: x :: y :: s =>
            (codeUnit a b x y).bind fun unit => (parseString s).map (push unit)
          | _ => none
        else (unescape e).bind fun unit => (parseString s).map (push unit)
    else if c < 32 then none
    else (parseString s).map (push c)

end Strings

def isSpace (c : UInt16) : Bool := c == 9 || c == 10 || c == 13 || c == 32

def skipSpace (s : JsString) : JsString := s.dropWhile isSpace

def expect (c : UInt16) (s : JsString) : Option JsString :=
  match skipSpace s with
  | d :: s => if d = c then some s else none
  | [] => none

def literals : List (JsString × Value) :=
  [(ofText "null", .null), (ofText "true", .boolean true), (ofText "false", .boolean false)]

def parseLiteral (s : JsString) : Option (Value × JsString) :=
  match literals.find? fun literal => literal.1.isPrefixOf s with
  | some (name, value) => some (value, s.drop name.length)
  | none => (parseNumber s).map fun (literal, s) => (.number literal, s)

mutual

/-- A value and what follows it. Each call of the three takes one from the fuel. -/
def parseValue : Nat → JsString → Option (Value × JsString)
  | 0, _ => none
  | fuel + 1, s =>
    match skipSpace s with
    | [] => none
    | c :: s =>
      if c = 34 then (parseString s).map fun (string, s) => (.string string, s)
      else if c = 91 then
        match expect 93 s with
        | some s => some (.array [], s)
        | none => (parseItems fuel s).map fun (items, s) => (.array items, s)
      else if c = 123 then
        match expect 125 s with
        | some s => some (.object [], s)
        | none => (parseMembers fuel s).map fun (members, s) => (.object members, s)
      else parseLiteral (c :: s)

def parseItems : Nat → JsString → Option (List Value × JsString)
  | 0, _ => none
  | fuel + 1, s =>
    (parseValue fuel s).bind fun (item, s) =>
      match expect 44 s with
      | some s => (parseItems fuel s).map fun (items, s) => (item :: items, s)
      | none => (expect 93 s).map fun s => ([item], s)

def parseMembers : Nat → JsString → Option (List (JsString × Value) × JsString)
  | 0, _ => none
  | fuel + 1, s =>
    (expect 34 s).bind fun s =>
    (parseString s).bind fun (name, s) =>
    (expect 58 s).bind fun s =>
    (parseValue fuel s).bind fun (value, s) =>
      match expect 44 s with
      | some s => (parseMembers fuel s).map fun (members, s) => ((name, value) :: members, s)
      | none => (expect 125 s).map fun s => ([(name, value)], s)

end

/-- `JSON.parse`. A value takes two calls for each of its characters at most. -/
def jsonParse (s : JsString) : Option Value :=
  (parseValue (2 * s.length + 1) s).bind fun (value, s) =>
    if skipSpace s = [] then some value else none

section Bytes

@[simp] theorem ofBytes_nil : ofBytes [] = [] := rfl

@[simp] theorem ofBytes_cons (b : UInt8) (bytes : List UInt8) :
    ofBytes (b :: bytes) = b.toUInt16 :: ofBytes bytes := rfl

@[simp] theorem ofBytes_append (bytes more : List UInt8) :
    ofBytes (bytes ++ more) = ofBytes bytes ++ ofBytes more := List.map_append

@[simp] theorem length_ofBytes (bytes : List UInt8) : (ofBytes bytes).length = bytes.length :=
  List.length_map _

end Bytes

section Text

theorem ofBytes_utf8EncodeChar {c : Char} (ascii : c.toNat < 128) :
    ofBytes (String.utf8EncodeChar c) = utf16 c := by
  have one : c.val.toNat ≤ 0x7f := Nat.le_of_lt_succ ascii
  have single : c.toNat < 0x10000 := Nat.lt_trans ascii (by decide)
  simp only [String.utf8EncodeChar, if_pos one, utf16, if_pos single, ofBytes_cons, ofBytes_nil]
  congr 1
  apply UInt16.toNat_inj.mp
  rw [UInt8.toNat_toUInt16, UInt8.toNat_ofNat', UInt16.toNat_ofNat']
  change c.toNat % 256 = c.toNat % 65536
  omega

theorem length_utf16_lt {c : Char} (beyond : 128 ≤ c.toNat) :
    (utf16 c).length < (ofBytes (String.utf8EncodeChar c)).length := by
  have more : ¬ c.val.toNat ≤ 0x7f := Nat.not_le_of_lt beyond
  rw [length_ofBytes]
  simp only [String.utf8EncodeChar, if_neg more, utf16]
  by_cases two : c.val.toNat ≤ 0x7ff
  · have single : c.toNat < 0x10000 := Nat.lt_of_le_of_lt two (by decide)
    simp only [if_pos two, if_pos single, List.length_cons, List.length_nil]
    decide
  · by_cases three : c.val.toNat ≤ 0xffff
    · have single : c.toNat < 0x10000 := Nat.lt_succ_of_le three
      simp only [if_neg two, if_pos three, if_pos single, List.length_cons, List.length_nil]
      decide
    · have pair : ¬ c.toNat < 0x10000 := fun less => three (Nat.le_of_lt_succ less)
      simp only [if_neg two, if_neg three, if_neg pair, List.length_cons, List.length_nil]
      decide

theorem length_utf16_le (c : Char) :
    (utf16 c).length ≤ (ofBytes (String.utf8EncodeChar c)).length := by
  by_cases ascii : c.toNat < 128
  · rw [ofBytes_utf8EncodeChar ascii]
  · exact Nat.le_of_lt (length_utf16_lt (Nat.le_of_not_lt ascii))

theorem length_flatMap_utf16_le (text : List Char) : (text.flatMap utf16).length ≤
    (ofBytes (text.flatMap String.utf8EncodeChar)).length := by
  induction text with
  | nil => exact Nat.le_refl _
  | cons c text ih =>
    have first := length_utf16_le c
    simp only [List.flatMap_cons, ofBytes_append, List.length_append]
    omega

/-- Read byte by byte, the UTF-8 of a text is the text exactly if every character is below 128. -/
theorem ofBytes_utf8_iff (text : List Char) :
    ofBytes (text.flatMap String.utf8EncodeChar) = text.flatMap utf16 ↔
      ∀ c ∈ text, c.toNat < 128 := by
  induction text with
  | nil => simp
  | cons c text ih =>
    rw [List.flatMap_cons, List.flatMap_cons, ofBytes_append, List.forall_mem_cons, ← ih]
    constructor
    · intro same
      have first : c.toNat < 128 := by
        by_contra beyond
        have longer := length_utf16_lt (Nat.le_of_not_lt beyond)
        have later := length_flatMap_utf16_le text
        have lengths := congrArg List.length same
        simp only [List.length_append] at lengths
        omega
      rw [ofBytes_utf8EncodeChar first] at same
      exact ⟨first, List.append_cancel_left same⟩
    · rintro ⟨first, later⟩
      rw [ofBytes_utf8EncodeChar first, later]

end Text

section Tokens

theorem skipSpace_cons {c : UInt16} (visible : isSpace c = false) (s : JsString) :
    skipSpace (c :: s) = c :: s := by
  rw [skipSpace, List.dropWhile_cons_of_neg (by rw [visible]; decide)]

theorem expect_self {c : UInt16} (visible : isSpace c = false) (s : JsString) :
    expect c (c :: s) = some s := by
  rw [expect, skipSpace_cons visible]
  exact if_pos rfl

theorem expect_other {c d : UInt16} (visible : isSpace d = false) (other : d ≠ c) (s : JsString) :
    expect c (d :: s) = none := by
  rw [expect, skipSpace_cons visible]
  exact if_neg other

@[simp] theorem parseString_end (s : JsString) : parseString (34 :: s) = some ([], s) := by
  rw [parseString.eq_def]
  exact if_pos rfl

theorem parseString_plain {c : UInt16} (quote : c ≠ 34) (backslash : c ≠ 92) (printed : ¬ c < 32)
    (s : JsString) : parseString (c :: s) = (parseString s).map (push c) := by
  rw [parseString.eq_def]
  simp only [if_neg quote, if_neg backslash, if_neg printed]

theorem parseString_escape {e unit : UInt16} (short : e ≠ 117) (stands : unescape e = some unit)
    (s : JsString) : parseString (92 :: e :: s) = (parseString s).map (push unit) := by
  rw [parseString.eq_def]
  simp [if_neg short, stands]

theorem parseString_unicode {a b x y unit : UInt16} (digits : codeUnit a b x y = some unit)
    (s : JsString) :
    parseString (92 :: 117 :: a :: b :: x :: y :: s) = (parseString s).map (push unit) := by
  rw [parseString.eq_def]
  simp [digits]

end Tokens

section NumberRules

theorem not_space_of_numberChar {c : UInt16} (number : numberChar c = true) :
    isSpace c = false := by
  by_contra space
  simp only [isSpace, Bool.not_eq_false, Bool.or_eq_true, beq_iff_eq] at space
  rcases space with ((rfl | rfl) | rfl) | rfl <;> exact absurd number (by decide)

theorem NumberState.numberChar_of_next {q q' : NumberState} {c : UInt16}
    (stepped : q.next c = some q') : numberChar c = true := by
  by_contra other
  simp only [numberChar, Bool.not_eq_true, Bool.or_eq_false_iff, beq_eq_false_iff_ne] at other
  obtain ⟨⟨⟨⟨⟨digit, plus⟩, minus⟩, point⟩, upper⟩, lower⟩ := other
  have zero : c ≠ 48 := by
    rintro rfl
    exact absurd digit (by decide)
  cases q <;> simp [next, afterInteger, digit, plus, minus, point, upper, lower, zero] at stepped

theorem numberChar_of_steps {literal : JsString} {q q' : NumberState}
    (steps : literal.foldlM NumberState.next q = some q') : ∀ c ∈ literal, numberChar c = true := by
  induction literal generalizing q with
  | nil => simp
  | cons c literal ih =>
    rw [List.foldlM_cons] at steps
    obtain ⟨p, first, later⟩ := Option.bind_eq_some_iff.mp steps
    intro d member
    rcases List.mem_cons.mp member with rfl | member
    · exact NumberState.numberChar_of_next first
    · exact ih later d member

theorem isNumber_iff {literal : JsString} : isNumber literal = true ↔
    ∃ q, literal.foldlM NumberState.next .start = some q ∧ q.final = true := by
  rw [isNumber, Option.any_eq_true]

/-- What may follow a value does not go on with a number. -/
def Follows (rest : JsString) : Prop := ∀ c s, rest = c :: s → numberChar c = false

theorem parseNumber_append {literal rest : JsString} (number : isNumber literal = true)
    (follows : Follows rest) : parseNumber (literal ++ rest) = some (literal, rest) := by
  obtain ⟨q, steps, _⟩ := isNumber_iff.mp number
  have stops : rest.takeWhile numberChar = [] := by
    cases rest with
    | nil => rfl
    | cons c s => rw [List.takeWhile_cons_of_neg (by rw [follows c s rfl]; decide)]
  have taken : (literal ++ rest).takeWhile numberChar = literal := by
    rw [List.takeWhile_append_of_pos (numberChar_of_steps steps), stops, List.append_nil]
  simp only [parseNumber, taken, number, if_true, List.drop_left]

theorem isNumber_cons {literal : JsString} (number : isNumber literal = true) :
    ∃ c more, literal = c :: more ∧ numberChar c = true := by
  obtain ⟨q, steps, final⟩ := isNumber_iff.mp number
  cases literal with
  | nil =>
    cases Option.some.inj steps
    contradiction
  | cons c more => exact ⟨c, more, rfl, numberChar_of_steps steps c List.mem_cons_self⟩

theorem parseLiteral_number {literal rest : JsString} (number : isNumber literal = true)
    (follows : Follows rest) : parseLiteral (literal ++ rest) = some (.number literal, rest) := by
  obtain ⟨c, more, rfl, starts⟩ := isNumber_cons number
  have other : c ≠ 110 ∧ c ≠ 116 ∧ c ≠ 102 := by
    refine ⟨?_, ?_, ?_⟩ <;>
      · rintro rfl
        exact absurd starts (by decide)
  have noName : (literals.find? fun name => name.1.isPrefixOf (c :: more ++ rest)) = none := by
    have names : literals = [([110, 117, 108, 108], .null), ([116, 114, 117, 101], .boolean true),
        ([102, 97, 108, 115, 101], .boolean false)] := rfl
    simp [names, Ne.symm other.1, Ne.symm other.2.1, Ne.symm other.2.2]
  rw [parseLiteral, noName, parseNumber_append number follows]
  rfl

end NumberRules

section Values

variable {fuel : Nat} {c : UInt16} {s rest : JsString}

theorem parseValue_string : parseValue (fuel + 1) (34 :: s) =
    (parseString s).map fun (string, s) => (.string string, s) := by
  rw [parseValue, skipSpace_cons (by decide)]
  exact if_pos rfl

theorem parseValue_literal (visible : isSpace c = false) (quote : c ≠ 34) (bracket : c ≠ 91)
    (brace : c ≠ 123) : parseValue (fuel + 1) (c :: s) = parseLiteral (c :: s) := by
  rw [parseValue, skipSpace_cons visible]
  simp only [if_neg quote, if_neg bracket, if_neg brace]

theorem parseValue_number {literal : JsString} (number : isNumber literal = true)
    (follows : Follows rest) :
    parseValue (fuel + 1) (literal ++ rest) = some (.number literal, rest) := by
  obtain ⟨c, more, rfl, starts⟩ := isNumber_cons number
  have other : c ≠ 34 ∧ c ≠ 91 ∧ c ≠ 123 := by
    refine ⟨?_, ?_, ?_⟩ <;>
      · rintro rfl
        exact absurd starts (by decide)
  rw [List.cons_append,
    parseValue_literal (not_space_of_numberChar starts) other.1 other.2.1 other.2.2]
  exact parseLiteral_number number follows

theorem parseValue_emptyArray : parseValue (fuel + 1) (91 :: 93 :: s) = some (.array [], s) := by
  rw [parseValue, skipSpace_cons (by decide)]
  simp only [expect_self (c := 93) (by decide)]
  rfl

theorem parseValue_array (visible : isSpace c = false) (some_item : c ≠ 93) :
    parseValue (fuel + 1) (91 :: c :: s) =
      (parseItems fuel (c :: s)).map fun (items, s) => (.array items, s) := by
  rw [parseValue, skipSpace_cons (by decide)]
  simp only [expect_other visible some_item]
  rfl

theorem parseValue_emptyObject :
    parseValue (fuel + 1) (123 :: 125 :: s) = some (.object [], s) := by
  rw [parseValue, skipSpace_cons (by decide)]
  simp only [expect_self (c := 125) (by decide)]
  rfl

theorem parseValue_object : parseValue (fuel + 1) (123 :: 34 :: s) =
    (parseMembers fuel (34 :: s)).map fun (members, s) => (.object members, s) := by
  have some_member : expect 125 (34 :: s) = none := expect_other (by decide) (by decide) s
  rw [parseValue, skipSpace_cons (by decide)]
  simp only [some_member]
  rfl

theorem parseItems_last {item : Value} (parsed : parseValue fuel s = some (item, 93 :: rest)) :
    parseItems (fuel + 1) s = some ([item], rest) := by
  have ends : expect 44 (93 :: rest) = none := expect_other (by decide) (by decide) rest
  rw [parseItems, parsed, Option.bind_some]
  simp only [ends, expect_self (c := 93) (by decide), Option.map_some]

theorem parseItems_next {item : Value} (parsed : parseValue fuel s = some (item, 44 :: rest)) :
    parseItems (fuel + 1) s =
      (parseItems fuel rest).map fun (items, s) => (item :: items, s) := by
  rw [parseItems, parsed, Option.bind_some]
  simp only [expect_self (c := 44) (by decide)]

variable {name after : JsString} {value : Value}

theorem parseMembers_last (named : parseString s = some (name, 58 :: after))
    (parsed : parseValue fuel after = some (value, 125 :: rest)) :
    parseMembers (fuel + 1) (34 :: s) = some ([(name, value)], rest) := by
  have ends : expect 44 (125 :: rest) = none := expect_other (by decide) (by decide) rest
  rw [parseMembers, expect_self (by decide), Option.bind_some, named, Option.bind_some]
  simp only [expect_self (c := 58) (by decide), Option.bind_some, parsed, ends,
    expect_self (c := 125) (by decide), Option.map_some]

theorem parseMembers_next (named : parseString s = some (name, 58 :: after))
    (parsed : parseValue fuel after = some (value, 44 :: rest)) :
    parseMembers (fuel + 1) (34 :: s) =
      (parseMembers fuel rest).map fun (members, s) => ((name, value) :: members, s) := by
  rw [parseMembers, expect_self (by decide), Option.bind_some, named, Option.bind_some]
  simp only [expect_self (c := 58) (by decide), Option.bind_some, parsed,
    expect_self (c := 44) (by decide)]

end Values

end Javascript

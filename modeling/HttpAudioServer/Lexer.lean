import HttpAudioServer.Numerals

/-! The lexical analysis of `json::parse`. The scanner is the automaton of the library; the
numbers in the comments are those of its labels. -/
namespace HttpAudioServer.Lexer

inductive TokenType where
  | uninitialized
  | literalTrue
  | literalFalse
  | literalNull
  | valueString
  | valueNumber
  | beginArray
  | beginObject
  | endArray
  | endObject
  | nameSeparator
  | valueSeparator
  | parseError
  | endOfInput
deriving DecidableEq, Repr

def tokenTypeName : TokenType → String
  | .uninitialized => "<uninitialized>"
  | .literalTrue => "true literal"
  | .literalFalse => "false literal"
  | .literalNull => "null literal"
  | .valueString => "string literal"
  | .valueNumber => "number literal"
  | .beginArray => "'['"
  | .beginObject => "'\x7b'"
  | .endArray => "']'"
  | .endObject => "'\x7d'"
  | .nameSeparator => "':'"
  | .valueSeparator => "','"
  | .parseError => "<parse error>"
  | .endOfInput => "end of input"

/-- The bytes from `m_start` to `m_cursor`, and those of the buffer from there on. -/
structure Token where
  type : TokenType
  text : Bytes
  cursor : Bytes
deriving DecidableEq, Repr

section Scan

def isBlank (ch : UInt8) : Bool := ch = 9 || ch = 10 || ch = 13 || ch = 32

/-- White space and byte order marks (6, 30, 42, 52). -/
def skipBlanks : Bytes → Bytes
  | [] => []
  | ch :: s =>
    if isBlank ch then skipBlanks s
    else
      match ch, s with
      | 0xEF, 0xBB :: 0xBF :: s => skipBlanks s
      | ch, s => ch :: s

def isDigit (ch : UInt8) : Bool := 48 ≤ ch && ch ≤ 57

def isUnescaped (ch : UInt8) : Bool := 32 ≤ ch && ch ≠ 34 && ch ≠ 92

/-- How long the rest of a string is, with its closing quote (31, 32, 34, 36, 43, 54, 60, 63). -/
def scanString : Bytes → Option Nat
  | [] => none
  | ch :: s =>
    if isUnescaped ch then (scanString s).map (· + 1)
    else if ch = 34 then some 1
    else if ch = 92 then
      match s with
      | [] => none
      | e :: s =>
        if e ∈ str "\"\\/bfnrt" then (scanString s).map (· + 2)
        else if e = 117 then
          match s with
          | a :: b :: c :: d :: s =>
            if [a, b, c, d].all fun ch => (hexDigit ch).isSome then (scanString s).map (· + 6)
            else none
          | _ => none
        else none
    else none

/-- A zero, or digits that do not begin with one (13, 15). -/
def scanInteger : Bytes → Option Nat
  | [] => none
  | ch :: s =>
    if ch = 48 then some 1
    else if isDigit ch then some (1 + (s.takeWhile isDigit).length)
    else none

/-- A point and digits (37, 44). Without digits the point is not part of the number. -/
def scanPoint : Bytes → Nat
  | 46 :: s => if s.takeWhile isDigit = [] then 0 else 1 + (s.takeWhile isDigit).length
  | _ => 0

def signLength : Bytes → Nat
  | 43 :: _ | 45 :: _ => 1
  | _ => 0

/-- The letter, a sign and digits (38, 46, 47). Without digits the letter is not part of the
number. -/
def scanPower : Bytes → Nat
  | [] => 0
  | ch :: s =>
    let digits := (s.drop (signLength s)).takeWhile isDigit
    if (ch = 69 ∨ ch = 101) ∧ digits ≠ [] then 1 + signLength s + digits.length else 0

def scanUnsigned (s : Bytes) : Option Nat :=
  (scanInteger s).map fun n =>
    let m := n + scanPoint (s.drop n)
    m + scanPower (s.drop m)

def took (type : TokenType) (s : Bytes) (n : Nat) : Token := ⟨type, s.take n, s.drop n⟩

/-- An error takes one byte, also where the automaton has gone back to its marker (33). -/
def orError (type : TokenType) (s : Bytes) : Option Nat → Token
  | some n => took type s n
  | none => took .parseError s 1

def literal (type : TokenType) (text s : Bytes) : Token :=
  orError type s (if text <+: s then some text.length else none)

/-- The token at the beginning of what is left of the buffer; behind its end there is none. -/
def scanToken : Bytes → Option Token
  | [] => none
  | ch :: s => some (
      if ch = 0 then took .endOfInput (ch :: s) 1
      else if ch = 34 then orError .valueString (ch :: s) ((scanString s).map (· + 1))
      else if ch = 44 then took .valueSeparator (ch :: s) 1
      else if ch = 45 then orError .valueNumber (ch :: s) ((scanUnsigned s).map (· + 1))
      else if isDigit ch then orError .valueNumber (ch :: s) (scanUnsigned (ch :: s))
      else if ch = 58 then took .nameSeparator (ch :: s) 1
      else if ch = 91 then took .beginArray (ch :: s) 1
      else if ch = 93 then took .endArray (ch :: s) 1
      else if ch = 102 then literal .literalFalse (str "false") (ch :: s)
      else if ch = 110 then literal .literalNull (str "null") (ch :: s)
      else if ch = 116 then literal .literalTrue (str "true") (ch :: s)
      else if ch = 123 then took .beginObject (ch :: s) 1
      else if ch = 125 then took .endObject (ch :: s) 1
      else took .parseError (ch :: s) 1)

def scan (s : Bytes) : Option Token := scanToken (skipBlanks s)

end Scan

section Values

/-- The bytes of a code point, which may be given by two surrogates. -/
def toUnicode (codepoint1 codepoint2 : Nat) : Except Exn Bytes :=
  -- check if codepoint1 is a high surrogate
  let codepoint : Except Exn Nat :=
    if 0xD800 ≤ codepoint1 ∧ codepoint1 ≤ 0xDBFF then
      -- check if codepoint2 is a low surrogate
      if 0xDC00 ≤ codepoint2 ∧ codepoint2 ≤ 0xDFFF then
        .ok (codepoint1 <<< 10 + codepoint2 - 0x35FDC00)
      else .error ⟨"missing or wrong low surrogate"⟩
    else .ok codepoint1
  codepoint.bind fun codepoint =>
    if codepoint < 0x80 then .ok [codepoint.toUInt8]
    else if codepoint ≤ 0x7ff then
      .ok [(0xC0 ||| codepoint >>> 6 &&& 0x1F).toUInt8, (0x80 ||| codepoint &&& 0x3F).toUInt8]
    else if codepoint ≤ 0xffff then
      .ok [(0xE0 ||| codepoint >>> 12 &&& 0x0F).toUInt8,
        (0x80 ||| codepoint >>> 6 &&& 0x3F).toUInt8, (0x80 ||| codepoint &&& 0x3F).toUInt8]
    else if codepoint ≤ 0x10ffff then
      .ok [(0xF0 ||| codepoint >>> 18 &&& 0x07).toUInt8,
        (0x80 ||| codepoint >>> 12 &&& 0x3F).toUInt8,
        (0x80 ||| codepoint >>> 6 &&& 0x3F).toUInt8, (0x80 ||| codepoint &&& 0x3F).toUInt8]
    else .error ⟨"code points above 0x10FFFF are invalid"⟩

def unescape (e : UInt8) : Option UInt8 :=
  if e = 116 then some 9
  else if e = 98 then some 8
  else if e = 102 then some 12
  else if e = 110 then some 10
  else if e = 114 then some 13
  else if e = 92 ∨ e = 47 ∨ e = 34 then some e
  else none

/-- `strtoul` with base 16, where there are only digits. -/
def hexValue (digits : Bytes) : Nat := digitsValue 16 (digits.filterMap hexDigit)

def isHighSurrogate (codepoint : Nat) : Bool := 0xD800 ≤ codepoint && codepoint ≤ 0xDBFF

/-- The loop of `get_string`, over what is between the quotes. No escape of a token is cut off
there. -/
def stringValue : Bytes → Except Exn Bytes
  | [] => .ok []
  | ch :: s =>
    if ch = 92 then
      match s with
      | [] => .ok []
      | e :: s =>
        if e = 117 then
          match s with
          | a :: b :: c :: d :: s =>
            let codepoint := hexValue [a, b, c, d]
            if isHighSurrogate codepoint then
              match s with
              | 92 :: 117 :: a :: b :: c :: d :: s =>
                (toUnicode codepoint (hexValue [a, b, c, d])).bind fun result =>
                  (stringValue s).map (result ++ ·)
              | _ => .error ⟨"missing low surrogate"⟩
            else (toUnicode codepoint 0).bind fun result => (stringValue s).map (result ++ ·)
          | _ => .ok []
        else (stringValue s).map ((unescape e).toList ++ ·)
    else (stringValue s).map (ch :: ·)

/-- `get_string` on the text of a token. -/
def getString (text : Bytes) : Except Exn Bytes := stringValue (text.drop 1).dropLast

inductive NumberType where
  | integer
  | unsigned
  | float
deriving DecidableEq, Repr

/-- Count the significant figures: the loop of `get_number`. The value is a `uint64_t`. -/
def countFigures (max : Nat) (value : Nat) (type : NumberType) : Bytes → Nat × NumberType
  | [] => (value, type)
  | ch :: s =>
    -- quickly skip tests if a digit
    if ch < 48 ∨ 57 < ch then
      -- don't count '.' but change to float; stop at an exponent
      if ch = 46 then countFigures max value .float s else (value, .float)
    else if type ≠ .float then
      let temp := (value * 10 + (ch.toNat - 48)) % 18446744073709551616
      -- test for overflow
      if temp < value ∨ max < temp then countFigures max value .float s
      else countFigures max temp type s
    else countFigures max value type s

/-- With a sign the greatest absolute value is that of the least `int64_t`. -/
def figures : Bytes → Nat × NumberType
  | 45 :: digits => countFigures 9223372036854775808 0 .integer digits
  | digits => countFigures 18446744073709551615 0 .unsigned digits

/-- `get_number` on the text of a token. -/
def getNumber (strtod : Bytes → Double) (text : Bytes) : Json :=
  match figures text with
  | (value, .unsigned) => .integer value
  | (value, .integer) => .integer (-value)
  | (_, .float) => .float (strtod text)

end Values

end HttpAudioServer.Lexer

import HttpAudioServer.Lexer

/-! The texts that `json::parse` is to read, with their values: the grammar of JSON over bytes.
Byte order marks count as white space, and the second surrogate of a pair may also stand
alone. What a number stands for is left open. -/
namespace HttpAudioServer.Grammar

open Lexer

inductive Blanks : Bytes → Prop where
  | nil : Blanks []
  | space {ch : UInt8} {s : Bytes} (blank : isBlank ch = true) (rest : Blanks s) : Blanks (ch :: s)
  | mark {s : Bytes} (rest : Blanks s) : Blanks (0xEF :: 0xBB :: 0xBF :: s)

section Strings

def Hex (a b c d : UInt8) (n : Nat) : Prop :=
  ∃ w x y z, hexDigit a = some w ∧ hexDigit b = some x ∧ hexDigit c = some y ∧
    hexDigit d = some z ∧ n = ((w * 16 + x) * 16 + y) * 16 + z

def HighSurrogate (n : Nat) : Prop := 0xD800 ≤ n ∧ n ≤ 0xDBFF

def LowSurrogate (n : Nat) : Prop := 0xDC00 ≤ n ∧ n ≤ 0xDFFF

/-- UTF-8, also of a surrogate. -/
def utf8 (n : Nat) : Bytes :=
  if n < 0x80 then [n.toUInt8]
  else if n < 0x800 then [(0xC0 + n / 64).toUInt8, (0x80 + n % 64).toUInt8]
  else if n < 0x10000 then
    [(0xE0 + n / 4096).toUInt8, (0x80 + n / 64 % 64).toUInt8, (0x80 + n % 64).toUInt8]
  else [(0xF0 + n / 262144).toUInt8, (0x80 + n / 4096 % 64).toUInt8, (0x80 + n / 64 % 64).toUInt8,
    (0x80 + n % 64).toUInt8]

/-- What stands between the quotes of a string, and the string. -/
inductive Chars : Bytes → Bytes → Prop where
  | nil : Chars [] []
  | plain {ch : UInt8} {s v : Bytes} (unescaped : isUnescaped ch = true) (rest : Chars s v) :
      Chars (ch :: s) (ch :: v)
  | escape {e ch : UInt8} {s v : Bytes} (escapes : unescape e = some ch) (rest : Chars s v) :
      Chars (92 :: e :: s) (ch :: v)
  | unicode {a b c d : UInt8} {n : Nat} {s v : Bytes} (hex : Hex a b c d n)
      (single : ¬ HighSurrogate n) (rest : Chars s v) :
      Chars (92 :: 117 :: a :: b :: c :: d :: s) (utf8 n ++ v)
  | pair {a b c d a' b' c' d' : UInt8} {m n : Nat} {s v : Bytes} (hex : Hex a b c d m)
      (high : HighSurrogate m) (hex' : Hex a' b' c' d' n) (low : LowSurrogate n)
      (rest : Chars s v) :
      Chars (92 :: 117 :: a :: b :: c :: d :: 92 :: 117 :: a' :: b' :: c' :: d' :: s)
        (utf8 (0x10000 + (m - 0xD800) * 0x400 + (n - 0xDC00)) ++ v)

end Strings

section Numbers

def Digits (s : Bytes) : Prop := s ≠ [] ∧ ∀ ch ∈ s, isDigit ch = true

inductive Integer : Bytes → Prop where
  | zero : Integer [48]
  | digits {d : UInt8} {s : Bytes} (first : isDigit d = true) (nonzero : d ≠ 48)
      (others : ∀ ch ∈ s, isDigit ch = true) : Integer (d :: s)

inductive Fraction : Bytes → Prop where
  | none : Fraction []
  | point {s : Bytes} (digits : Digits s) : Fraction (46 :: s)

inductive Power : Bytes → Prop where
  | none : Power []
  | letter {e : UInt8} {sign s : Bytes} (letter : e = 69 ∨ e = 101)
      (signed : sign = [] ∨ sign = [43] ∨ sign = [45]) (digits : Digits s) :
      Power (e :: (sign ++ s))

inductive Unsigned : Bytes → Prop where
  | parts {i f p : Bytes} (integer : Integer i) (fraction : Fraction f) (power : Power p) :
      Unsigned (i ++ (f ++ p))

inductive Number : Bytes → Prop where
  | plus {s : Bytes} (unsigned : Unsigned s) : Number s
  | minus {s : Bytes} (unsigned : Unsigned s) : Number (45 :: s)

variable (strtod : Bytes → Double)

def digitsNumber (digits : Bytes) : Nat := digits.foldl (fun n ch => n * 10 + (ch.toNat - 48)) 0

def integerNumber : Bytes → Int
  | 45 :: digits => -digitsNumber digits
  | digits => digitsNumber digits

/-- Without a point and an exponent a number is an integer of any size. -/
def IsInteger (s : Bytes) : Prop := ∀ ch ∈ s, ch = 45 ∨ isDigit ch = true

instance (s : Bytes) : Decidable (IsInteger s) := List.decidableBAll _ _

def numeralValue (s : Bytes) : Json :=
  if IsInteger s then .integer (integerNumber s) else .float (strtod s)

/-- An integer is one of 64 bits, and negative ones have a sign. -/
def FitsNumber (s : Bytes) : Prop :=
  IsInteger s → -9223372036854775808 ≤ integerNumber s ∧ integerNumber s ≤ 18446744073709551615

/-- Numbers as `get_number` reads them. -/
def Counted (s : Bytes) (j : Json) : Prop := Lexer.getNumber strtod s = j

/-- Numbers as they are, if they fit. -/
def Exact (s : Bytes) (j : Json) : Prop := numeralValue strtod s = j ∧ FitsNumber s

end Numbers

section Values

variable (numeral : Bytes → Json → Prop)

mutual

inductive Value : Bytes → Json → Prop where
  | null : Value (str "null") .null
  | literalTrue : Value (str "true") (.boolean true)
  | literalFalse : Value (str "false") (.boolean false)
  | string {s v : Bytes} (chars : Chars s v) : Value (34 :: (s ++ [34])) (.string v)
  | number {s : Bytes} {j : Json} (number : Number s) (stands : numeral s j) : Value s j
  | emptyArray {b : Bytes} (blanks : Blanks b) : Value (91 :: (b ++ [93])) (.array [])
  | array {s : Bytes} {items : List Json} (elements : Items s items) :
      Value (91 :: (s ++ [93])) (.array items)
  | emptyObject {b : Bytes} (blanks : Blanks b) : Value (123 :: (b ++ [125])) (.object [])
  | object {s : Bytes} {fields : List (Bytes × Json)} (members : Members s fields) :
      Value (123 :: (s ++ [125])) (.ofFields fields)

inductive Items : Bytes → List Json → Prop where
  | last {b s b' : Bytes} {item : Json} (before : Blanks b) (value : Value s item)
      (after : Blanks b') : Items (b ++ (s ++ b')) [item]
  | cons {b s b' t : Bytes} {item : Json} {items : List Json} (before : Blanks b)
      (value : Value s item) (after : Blanks b') (rest : Items t items) :
      Items (b ++ (s ++ (b' ++ 44 :: t))) (item :: items)

/-- The members in the order of the text. When a key comes twice, the last one counts. -/
inductive Members : Bytes → List (Bytes × Json) → Prop where
  | last {b k b₁ b₂ s b₃ key : Bytes} {value : Json} (before : Blanks b) (chars : Chars k key)
      (between : Blanks b₁) (between' : Blanks b₂) (valued : Value s value)
      (after : Blanks b₃) :
      Members (b ++ 34 :: (k ++ 34 :: (b₁ ++ 58 :: (b₂ ++ (s ++ b₃))))) [(key, value)]
  | cons {b k b₁ b₂ s b₃ t key : Bytes} {value : Json} {fields : List (Bytes × Json)}
      (before : Blanks b) (chars : Chars k key) (between : Blanks b₁) (between' : Blanks b₂)
      (valued : Value s value) (after : Blanks b₃) (rest : Members t fields) :
      Members (b ++ 34 :: (k ++ 34 :: (b₁ ++ 58 :: (b₂ ++ (s ++ (b₃ ++ 44 :: t))))))
        ((key, value) :: fields)

end

def Document (text : Bytes) (j : Json) : Prop :=
  ∃ b s b', text = b ++ (s ++ b') ∧ Blanks b ∧ Value numeral s j ∧ Blanks b'

section Mono

/-- More may be said of what the numbers stand for. -/
def Weaker (numeral numeral' : Bytes → Json → Prop) : Prop :=
  ∀ s j, Number s → numeral s j → numeral' s j

variable {numeral} {numeral' : Bytes → Json → Prop}

mutual

theorem Value.mono (weaker : Weaker numeral numeral') {s : Bytes} {j : Json} :
    Value numeral s j → Value numeral' s j
  | .null => .null
  | .literalTrue => .literalTrue
  | .literalFalse => .literalFalse
  | .string chars => .string chars
  | .number number stands => .number number (weaker _ _ number stands)
  | .emptyArray blanks => .emptyArray blanks
  | .array elements => .array (elements.mono weaker)
  | .emptyObject blanks => .emptyObject blanks
  | .object members => .object (members.mono weaker)

theorem Items.mono (weaker : Weaker numeral numeral') {s : Bytes} {items : List Json} :
    Items numeral s items → Items numeral' s items
  | .last before value after => .last before (value.mono weaker) after
  | .cons before value after rest => .cons before (value.mono weaker) after (rest.mono weaker)

theorem Members.mono (weaker : Weaker numeral numeral') {s : Bytes}
    {fields : List (Bytes × Json)} : Members numeral s fields → Members numeral' s fields
  | .last before chars between between' valued after =>
    .last before chars between between' (valued.mono weaker) after
  | .cons before chars between between' valued after rest =>
    .cons before chars between between' (valued.mono weaker) after (rest.mono weaker)

end

theorem Document.mono (weaker : Weaker numeral numeral') {text : Bytes} {j : Json}
    (document : Document numeral text j) : Document numeral' text j := by
  obtain ⟨b, s, b', split, blanks, value, blanks'⟩ := document
  exact ⟨b, s, b', split, blanks, value.mono weaker, blanks'⟩

end Mono

end Values

end HttpAudioServer.Grammar

import HttpAudioServer.Library.FloatingPoint
import HttpAudioServer.Stream

/-! Numbers in a text, as `std::stold` reads them, and what becomes of them when they are
converted. A `long double` is in the extended format. -/
namespace HttpAudioServer

open FloatingPoint

/-- In the "C" locale. -/
def tolower (ch : UInt8) : UInt8 := if 65 ≤ ch ∧ ch ≤ 90 then ch + 32 else ch

def isSpace (ch : UInt8) : Bool := ch = 32 || (9 ≤ ch && ch ≤ 13)

def decimalDigit (ch : UInt8) : Option Nat :=
  if 48 ≤ ch ∧ ch ≤ 57 then some (ch - 48).toNat else none

def hexDigit (ch : UInt8) : Option Nat :=
  if 48 ≤ ch ∧ ch ≤ 57 then some (ch - 48).toNat
  else if 97 ≤ tolower ch ∧ tolower ch ≤ 102 then some (tolower ch - 87).toNat
  else none

/-- How a number is written: its digits, and the letter and the base of its exponent. -/
structure Radix where
  digit : UInt8 → Option Nat
  base : Nat
  letter : UInt8
  exponentBase : Nat

def decimal : Radix := ⟨decimalDigit, 10, 101, 10⟩

def hexadecimal : Radix := ⟨hexDigit, 16, 112, 2⟩

def digitsValue (base : Nat) (digits : List Nat) : Nat := digits.foldl (fun n d => n * base + d) 0

def scanDigits (digit : UInt8 → Option Nat) (s : Bytes) : List Nat :=
  (s.takeWhile fun ch => (digit ch).isSome).filterMap digit

def skipDigits (digit : UInt8 → Option Nat) (s : Bytes) : Bytes :=
  s.dropWhile fun ch => (digit ch).isSome

/-- Whether there is a minus, and what follows the sign. -/
def scanSign : Bytes → Bool × Bytes
  | 43 :: s => (false, s)
  | 45 :: s => (true, s)
  | s => (false, s)

/-- An exponent without digits is none, and then the letter is not part of the number. -/
def scanExponent (letter : UInt8) : Bytes → Int
  | ch :: s =>
    if tolower ch = letter then
      let (negative, s) := scanSign s
      let n := digitsValue 10 (scanDigits decimalDigit s)
      if negative then -n else n
    else 0
  | [] => 0

namespace Radix

variable (r : Radix)

def scanFraction : Bytes → List Nat × Bytes
  | 46 :: s => (scanDigits r.digit s, skipDigits r.digit s)
  | s => ([], s)

/-- The number at the beginning, without a sign. There has to be a digit on either side of the
point. -/
def scan (s : Bytes) : Option Rat :=
  let whole := scanDigits r.digit s
  let (fraction, s) := r.scanFraction (skipDigits r.digit s)
  if whole = [] ∧ fraction = [] then none
  else
    some (digitsValue r.base (whole ++ fraction) * (r.exponentBase : Rat) ^ scanExponent r.letter s /
      (r.base : Rat) ^ fraction.length)

end Radix

inductive Numeral where
  | decimal (x : Rat)
  | hexadecimal (x : Rat)
  | infinity (negative : Bool)
  | nan

def signed (negative : Bool) (x : Rat) : Rat := if negative then -x else x

def beginsWith (word s : Bytes) : Bool := (s.take word.length).map tolower = word

/-- The subject sequence of `strtold`. -/
def scanNumeral (s : Bytes) : Option Numeral :=
  let (negative, s) := scanSign (s.dropWhile isSpace)
  if beginsWith (str "inf") s then some (.infinity negative)
  else if beginsWith (str "nan") s then some .nan
  else
    match if beginsWith (str "0x") s then hexadecimal.scan (s.drop 2) else none with
    | some x => some (.hexadecimal (signed negative x))
    | none => (decimal.scan s).map fun x => .decimal (signed negative x)

/-- Whether `strtold` leaves `errno` alone. -/
def InLongDouble (x : Rat) : Prop := ¬ extended.Overflows x ∧ ¬ extended.Underflows x

instance (x : Rat) : Decidable (InLongDouble x) := inferInstanceAs (Decidable (_ ∧ _))

def stold (s : Bytes) : Except Exn Value :=
  match scanNumeral s with
  | none => .error ⟨"stold"⟩
  | some (.decimal x) | some (.hexadecimal x) =>
    if InLongDouble x then .ok (.finite (extended.rounded x)) else .error ⟨"stold"⟩
  | some (.infinity negative) => .ok (.infinite negative)
  | some .nan => .ok .nan

def InInt (i : Int) : Prop := -2147483648 ≤ i ∧ i ≤ 2147483647

instance (i : Int) : Decidable (InInt i) := inferInstanceAs (Decidable (_ ∧ _))

def truncate (x : Rat) : Int := if 0 ≤ x then ⌊x⌋ else ⌈x⌉

/-- From an integer of 64 bits. -/
def wrapInt (i : Int) : Int := i.bmod (2 ^ 32)

/-- From a floating-point number. The conversion is undefined where the integer is not in range;
`outside` is what comes of it. -/
def castInt (outside : Value → Int) : Value → Int
  | .finite x => if InInt (truncate x) then truncate x else outside (.finite x)
  | v => outside v

def castDouble : Value → Value
  | .finite x => binary64.nearest x
  | v => v

end HttpAudioServer

import HttpAudioServer.Extraction
import HttpAudioServer.Library.DoubleRounding

/-! The number fields of the metadata: what they should be, and for which leaves they are. -/
namespace HttpAudioServer

open FloatingPoint

/-- The decimal number that a text begins with, after blanks and with a sign. -/
def decimalPrefix (s : Bytes) : Option Rat :=
  let (negative, s) := scanSign (s.dropWhile isSpace)
  (decimal.scan s).map (signed negative)

def Json.number : Json → Option Rat
  | .integer i => some i
  | .float x => some x.value
  | .string s => decimalPrefix s
  | _ => none

/-- The number towards zero, if there is one in the range. -/
def expectedInt (j : Json) : Int :=
  match j.number with
  | some x => if InInt (truncate x) then truncate x else -1
  | none => -1

/-- The number as the nearest `double`, if there is one in the range. -/
def expectedDuration : Json → Value
  | .integer i => binary64.nearest i
  | .float x => .finite x.value
  | .string s =>
    match decimalPrefix s with
    | some x => if binary64.Overflows x then .finite (-1) else binary64.nearest x
    | none => .finite (-1)
  | _ => .finite (-1)

/-- The next integer, away from zero, is farther than half a unit of the `long double`. A hexadecimal
number begins with a zero, and is one only up to the fraction. -/
def Numeral.IntExact : Numeral → Prop
  | .decimal x =>
    InLongDouble x ∧ InInt (truncate x) ∧ extended.unit x / 2 < ⌊|x|⌋ + 1 - |x|
  | .hexadecimal x => InLongDouble x ∧ |x| < 1 ∧ extended.unit x / 2 < 1 - |x|
  | _ => False

/-- The number is not so near to the tie of two doubles that a `long double` is the tie, or else it is
on the side of the even one. -/
def Numeral.DurationExact : Numeral → Prop
  | .decimal x => InLongDouble x ∧ ¬ binary64.Overflows x ∧
      ¬ BesideTie (extended.unit x) (binary64.unit x) |x|
  | .hexadecimal x => InLongDouble x ∧ |x| ≤ 2 ^ (-1075 : Int) + 2 ^ (-1139 : Int)
  | _ => False

def Json.IntExact : Json → Prop
  | .integer i => InInt i ∨ i % 2 ^ 32 = 2 ^ 32 - 1
  | .float x => InInt (truncate x.value)
  | .string s => ∃ n ∈ scanNumeral s, n.IntExact
  | _ => True

def Json.DurationExact : Json → Prop
  | .integer i => InInt i
  | .float x => InInt (truncate x.value) ∧ x.value = truncate x.value
  | .string s => ∃ n ∈ scanNumeral s, n.DurationExact
  | _ => True

section Texts

theorem tolower_le {ch : UInt8} (low : ch ≤ 57) : tolower ch = ch := by
  unfold tolower
  rw [if_neg]
  rintro ⟨high, -⟩
  exact absurd (UInt8.le_trans high low) (by decide)

section Letters

variable {ch : UInt8} (letter : 57 < tolower ch)
include letter

theorem letter_above : ¬ ch ≤ 57 := fun low =>
  absurd (tolower_le low ▸ letter) (UInt8.not_lt.mpr low)

theorem decimalDigit_letter : decimalDigit ch = none :=
  if_neg fun range => letter_above letter range.2

theorem scanFraction_letter (s : Bytes) : decimal.scanFraction (ch :: s) = ([], ch :: s) := by
  unfold Radix.scanFraction
  split
  · rename_i point
    have below : ch ≤ 57 := (List.cons.inj point).1 ▸ by decide
    exact absurd below (letter_above letter)
  · rfl

theorem decimal_scan_letter (s : Bytes) : decimal.scan (ch :: s) = none := by
  have no_digit := decimalDigit_letter letter
  have whole : scanDigits decimalDigit (ch :: s) = [] := by
    simp [scanDigits, no_digit]
  have rest : skipDigits decimalDigit (ch :: s) = ch :: s := by
    simp [skipDigits, no_digit]
  unfold Radix.scan
  rw [show decimal.digit = decimalDigit from rfl, whole, rest, scanFraction_letter letter]
  rfl

theorem decimal_scan_zero (s : Bytes) : decimal.scan (48 :: ch :: s) = some 0 := by
  have no_digit := decimalDigit_letter letter
  have zero : decimalDigit 48 = some 0 := rfl
  have whole : scanDigits decimalDigit (48 :: ch :: s) = [0] := by
    simp [scanDigits, no_digit, zero]
  have rest : skipDigits decimalDigit (48 :: ch :: s) = ch :: s := by
    simp [skipDigits, no_digit, zero]
  unfold Radix.scan
  rw [show decimal.digit = decimalDigit from rfl, whole, rest, scanFraction_letter letter]
  simp [digitsValue]

end Letters

theorem beginsWith_cons {c : UInt8} {word s : Bytes} (begins : beginsWith (c :: word) s = true) :
    ∃ ch t, s = ch :: t ∧ tolower ch = c ∧ beginsWith word t = true := by
  unfold beginsWith at begins
  cases s with
  | nil => simp at begins
  | cons ch t =>
    rw [decide_eq_true_eq, List.length_cons, List.take_succ_cons, List.map_cons,
      List.cons_eq_cons] at begins
    exact ⟨ch, t, rfl, begins.1, decide_eq_true begins.2⟩

theorem digit_of_tolower {ch : UInt8} (zero : tolower ch = 48) : ch = 48 := by
  unfold tolower at zero
  split at zero
  case isTrue capital =>
    have value := congrArg UInt8.toNat zero
    have range : 65 ≤ ch.toNat ∧ ch.toNat ≤ 90 := capital
    rw [UInt8.toNat_add] at value
    change (ch.toNat + 32) % 256 = 48 at value
    omega
  case isFalse => exact zero

theorem decimalPrefix_scanNumeral (s : Bytes) :
    decimalPrefix s =
      match scanNumeral s with
      | some (.decimal x) => some x
      | some (.hexadecimal _) => some 0
      | _ => none := by
  unfold decimalPrefix scanNumeral
  obtain ⟨negative, t⟩ := scanSign (s.dropWhile isSpace)
  simp only
  by_cases infinity : beginsWith (str "inf") t = true
  · obtain ⟨ch, u, rfl, lower, -⟩ := beginsWith_cons infinity
    rw [if_pos infinity, decimal_scan_letter (lower ▸ by decide)]
    rfl
  rw [if_neg infinity]
  by_cases nan : beginsWith (str "nan") t = true
  · obtain ⟨ch, u, rfl, lower, -⟩ := beginsWith_cons nan
    rw [if_pos nan, decimal_scan_letter (lower ▸ by decide)]
    rfl
  rw [if_neg nan]
  cases hex : if beginsWith (str "0x") t = true then hexadecimal.scan (t.drop 2) else none with
  | none =>
    simp only
    cases decimal.scan t <;> rfl
  | some x =>
    have begins : beginsWith (str "0x") t = true := by
      by_contra other
      rw [if_neg other] at hex
      contradiction
    obtain ⟨zero, u, rfl, lower, more⟩ := beginsWith_cons begins
    obtain ⟨ch, v, rfl, lower', -⟩ := beginsWith_cons more
    rw [digit_of_tolower lower, decimal_scan_zero (lower' ▸ by decide)]
    simp [signed]

end Texts

section Integers

theorem truncate_intCast (i : Int) : truncate i = i := by
  unfold truncate
  split
  · exact Int.floor_intCast i
  · exact Int.ceil_intCast i

theorem le_abs_truncate {x : Rat} {n : Int} (far : (n : Rat) ≤ |x|) : n ≤ |truncate x| := by
  unfold truncate
  split
  case isTrue right =>
    rw [abs_of_nonneg right] at far
    exact (Int.le_floor.mpr far).trans (le_abs_self _)
  case isFalse left =>
    rw [abs_of_neg (not_le.mp left)] at far
    have low : x ≤ ((-n : Int) : Rat) := by
      push_cast
      linarith
    exact (by have := Int.ceil_le.mpr low; omega : n ≤ -⌈x⌉).trans (neg_le_abs _)

theorem abs_truncate_le (x : Rat) : (|truncate x| : Rat) ≤ |x| := by
  unfold truncate
  split
  case isTrue right =>
    have := Int.floor_nonneg.mpr right
    rw [abs_of_nonneg right, abs_of_nonneg (by exact_mod_cast this)]
    exact Int.floor_le x
  case isFalse left =>
    have low := not_le.mp left
    have : ⌈x⌉ ≤ 0 := Int.ceil_le.mpr (by exact_mod_cast low.le)
    rw [abs_of_neg low, abs_of_nonpos (by exact_mod_cast this)]
    linarith [Int.le_ceil x]

theorem truncate_rounded_far {x : Rat} (outside : ¬ InInt (truncate x)) :
    truncate (extended.rounded x) ≠ -1 := by
  have far : ((2 : Rat)) ^ (31 : Int) ≤ |x| := by
    refine le_trans ?_ (abs_truncate_le x)
    have : (2147483648 : Int) ≤ |truncate x| := by
      unfold InInt at outside
      rw [le_abs]
      omega
    have cast : ((2147483648 : Int) : Rat) ≤ ((|truncate x| : Int) : Rat) := by exact_mod_cast this
    rw [Int.cast_abs] at cast
    refine le_trans (le_of_eq ?_) cast
    norm_num
  have kept := Format.le_abs_rounded (f := extended) (by decide) (by decide) far
  have : (2 : Int) ≤ |truncate (extended.rounded x)| := by
    refine le_abs_truncate (le_trans ?_ kept)
    norm_num
  intro minus_one
  rw [minus_one] at this
  contradiction

theorem truncate_of_nonneg {x : Rat} (nonneg : 0 ≤ x) : truncate x = ⌊x⌋ := if_pos nonneg

theorem truncate_neg (x : Rat) : truncate (-x) = -truncate x := by
  unfold truncate
  rcases lt_trichotomy x 0 with left | rfl | right
  · rw [if_pos (by linarith), if_neg (by linarith), Int.floor_neg]
  · simp
  · rw [if_neg (by linarith), if_pos right.le, Int.ceil_neg]

/-- The `long double` reaches no other integer. -/
theorem truncate_rounded {x : Rat} (small : |x| < 2 ^ (63 : Int)) :
    truncate (extended.rounded x) = truncate x ↔ extended.unit x / 2 < ⌊|x|⌋ + 1 - |x| := by
  have nonneg : ∀ y : Rat, 0 ≤ y → |y| < 2 ^ (63 : Int) →
      (truncate (extended.rounded y) = truncate y ↔ extended.unit y / 2 < ⌊|y|⌋ + 1 - |y|) := by
    intro y least below
    rw [abs_of_nonneg least] at below ⊢
    have kept := le_multiple (x := y) (n := 0) (extended.unit_pos y) (by simpa using least)
    have right : 0 ≤ extended.rounded y := by
      rcases least.eq_or_lt with rfl | positive
      · rw [Format.rounded_zero]
      · rw [Format.rounded_pos (by decide) positive]
        simpa using kept
    rw [truncate_of_nonneg right, truncate_of_nonneg least]
    exact Format.floor_rounded (by decide) (by decide) least below
  rcases le_total 0 x with right | left
  · exact nonneg x right small
  · have mirrored := nonneg (-x) (by linarith) (by rwa [abs_neg])
    rwa [Format.rounded_neg, truncate_neg, truncate_neg, neg_inj, Format.unit_neg, abs_neg]
      at mirrored

theorem truncate_rounded_zero {x : Rat} :
    truncate (extended.rounded x) = 0 ↔ |x| < 1 ∧ extended.unit x / 2 < 1 - |x| := by
  rcases lt_or_ge |x| 1 with inside | far
  · have zero : truncate x = 0 := by
      have bound := abs_truncate_le x
      have less : ((|truncate x| : Int) : Rat) < 1 := by
        rw [Int.cast_abs]
        exact bound.trans_lt inside
      exact Int.abs_lt_one_iff.mp (by exact_mod_cast less)
    have floor : ⌊|x|⌋ = 0 := Int.floor_eq_zero_iff.mpr ⟨abs_nonneg x, inside⟩
    have same := truncate_rounded (inside.trans (by norm_num))
    rw [zero, floor, Int.cast_zero, zero_add] at same
    rw [same, and_iff_right inside]
  · have kept := Format.le_abs_rounded (f := extended) (k := 0) (by decide) (by decide)
      (by simpa using far)
    have reached : (1 : Int) ≤ |truncate (extended.rounded x)| :=
      le_abs_truncate (by simpa using kept)
    refine iff_of_false (fun zero => ?_) (fun inside => absurd inside.1 (not_lt.mpr far))
    rw [zero, abs_zero] at reached
    contradiction

theorem wrapInt_inInt (i : Int) : InInt (wrapInt i) := by
  unfold InInt wrapInt
  have low := Int.le_bmod (x := i) (m := 2 ^ 32) (by decide)
  have high := Int.bmod_lt (x := i) (m := 2 ^ 32) (by decide)
  omega

theorem wrapInt_eq {i : Int} (inside : InInt i) : wrapInt i = i := by
  unfold InInt at inside
  unfold wrapInt
  exact Int.bmod_eq_of_le (by omega) (by omega)

theorem wrapInt_minus_one (i : Int) : wrapInt i = -1 ↔ i % 2 ^ 32 = 2 ^ 32 - 1 := by
  unfold wrapInt
  rw [Int.bmod_def]
  split <;> omega

end Integers

section Leaves

open MetadataField

theorem castInt_always {v : Value} {e : Int} :
    (∀ outside, castInt outside v = e) ↔
      ∃ x, v = .finite x ∧ InInt (truncate x) ∧ truncate x = e := by
  constructor
  · intro always
    have zero := always fun _ => 0
    have one := always fun _ => 1
    cases v with
    | infinite | nan => exact absurd (zero.trans one.symm) (by simp [castInt])
    | finite x =>
      by_cases inside : InInt (truncate x)
      · exact ⟨x, rfl, inside, by simpa [castInt, inside] using zero⟩
      · simp only [castInt, if_neg inside] at zero one
        exact absurd (zero.trans one.symm) (by decide)
  · rintro ⟨x, rfl, inside, same⟩ outside
    simpa [castInt, inside] using same

theorem inInt_zero : InInt 0 := by decide

theorem truncate_zero : truncate 0 = 0 := by
  exact_mod_cast truncate_intCast 0

theorem stold_eq_ok {s : Bytes} {v : Value} :
    stold s = .ok v ↔ ∃ n ∈ scanNumeral s, match n with
      | .decimal x | .hexadecimal x => InLongDouble x ∧ v = .finite (extended.rounded x)
      | .infinity negative => v = .infinite negative
      | .nan => v = .nan := by
  unfold stold
  cases scanNumeral s with
  | none => simp
  | some n =>
    simp only [Option.mem_def, Option.some.injEq, exists_eq_left']
    cases n with
    | decimal x | hexadecimal x =>
      by_cases held : InLongDouble x
      · simp [held, eq_comm]
      · simp [held]
    | infinity | nan => simp [eq_comm]

theorem intOf_string {s : Bytes} {e : Int} :
    (∀ outside, intOf outside (.string s) = .ok e) ↔
      ∃ v, stold s = .ok v ∧ ∀ outside, castInt outside v = e := by
  have conversion (outside : Value → Int) :
      intOf outside (.string s) = (stold s).map (castInt outside) := rfl
  simp only [conversion, map_eq_ok]
  constructor
  · intro always
    obtain ⟨v, read, -⟩ := always fun _ => 0
    refine ⟨v, read, fun outside => ?_⟩
    obtain ⟨v', read', same⟩ := always outside
    cases read.symm.trans read'
    exact same
  · rintro ⟨v, read, always⟩ outside
    exact ⟨v, read, always outside⟩

theorem inInt_small {x : Rat} (range : InInt (truncate x)) : |x| < 2 ^ (63 : Int) := by
  by_contra large
  have far : ((2 ^ 63 : Int) : Rat) ≤ |x| := by
    refine le_trans (le_of_eq ?_) (not_lt.mp large)
    norm_num
  have := le_abs_truncate far
  unfold InInt at range
  rw [le_abs] at this
  omega

theorem intOf_string_exact (s : Bytes) :
    (∀ outside, intOf outside (.string s) = .ok (expectedInt (.string s))) ↔
      Json.IntExact (.string s) := by
  have begins := decimalPrefix_scanNumeral s
  simp only [intOf_string, stold_eq_ok, castInt_always, Json.IntExact, expectedInt, Json.number,
    begins]
  cases scanNumeral s with
  | none => simp
  | some n =>
    simp only [Option.mem_def, Option.some.injEq, exists_eq_left']
    cases n with
    | infinity | nan => simp [Numeral.IntExact]
    | hexadecimal x =>
      simp only [Numeral.IntExact, truncate_zero, if_pos inInt_zero]
      constructor
      · rintro ⟨_, ⟨held, rfl⟩, _, ⟨⟩, -, same⟩
        exact ⟨held, truncate_rounded_zero.mp same⟩
      · rintro ⟨held, near⟩
        have same := truncate_rounded_zero.mpr near
        exact ⟨_, ⟨held, rfl⟩, _, rfl, same ▸ inInt_zero, same⟩
    | decimal x =>
      simp only [Numeral.IntExact]
      constructor
      · rintro ⟨_, ⟨held, rfl⟩, _, ⟨⟩, inside, same⟩
        by_cases range : InInt (truncate x)
        · rw [if_pos range] at same
          exact ⟨held, range, (truncate_rounded (inInt_small range)).mp same⟩
        · rw [if_neg range] at same
          exact absurd same (truncate_rounded_far range)
      · rintro ⟨held, range, far⟩
        have same := (truncate_rounded (inInt_small range)).mpr far
        rw [if_pos range]
        exact ⟨_, ⟨held, rfl⟩, _, rfl, same ▸ range, same⟩

/-- An integer field is read from a leaf as it should be, whatever an undefined conversion gives,
exactly for these leaves. -/
theorem intOf_exact (j : Json) :
    (∀ outside, intOf outside j = .ok (expectedInt j)) ↔ j.IntExact := by
  cases j with
  | null | boolean | array | object => exact iff_of_true (fun _ => rfl) trivial
  | string s => exact intOf_string_exact s
  | float x =>
    have conversion (outside : Value → Int) :
        intOf outside (.float x) = .ok (castInt outside (.finite x.value)) := rfl
    simp only [conversion, Except.ok.injEq, castInt_always, Json.IntExact, expectedInt, Json.number]
    constructor
    · rintro ⟨_, ⟨⟩, inside, -⟩
      exact inside
    · intro inside
      exact ⟨x.value, rfl, inside, (if_pos inside).symm⟩
  | integer i =>
    have conversion (outside : Value → Int) : intOf outside (.integer i) = .ok (wrapInt i) := rfl
    simp only [conversion, Except.ok.injEq, forall_const, Json.IntExact, expectedInt, Json.number,
      truncate_intCast]
    by_cases inside : InInt i
    · simp [inside, wrapInt_eq inside]
    · simp [inside, wrapInt_minus_one]

theorem nearest_zero : binary64.nearest 0 = .finite 0 := by
  exact_mod_cast Format.nearest_intCast (f := binary64) (n := 0) (by decide) (by decide) (by decide)

theorem not_overflows_zero : ¬ binary64.Overflows 0 := by
  exact_mod_cast Format.not_overflows_intCast (f := binary64) (n := 0) (by decide) (by decide)

theorem nearest_rounded_far {x : Rat} (large : binary64.Overflows x) :
    binary64.nearest (extended.rounded x) ≠ .finite (-1) := by
  intro minus_one
  have far : (2 : Rat) ^ (1 : Int) ≤ |x| := by
    rw [zpow_one]
    exact Format.two_le_of_overflows (by decide) (by decide) large
  have kept := Format.le_abs_rounded (f := extended) (by decide) (by decide) far
  have kept' := Format.le_abs_nearest (f := binary64) (by decide) (by decide) kept minus_one
  rw [zpow_one] at kept'
  norm_num at kept'

theorem nearest_rounded {x : Rat} (fits : ¬ binary64.Overflows x) :
    binary64.nearest (extended.rounded x) = binary64.nearest x ↔
      ¬ BesideTie (extended.unit x) (binary64.unit x) |x| :=
  Format.nearest_twice (by decide) (by decide) (by decide) (by decide) fits

theorem nearest_eq_zero (x : Rat) : binary64.nearest x = .finite 0 ↔ |x| ≤ 2 ^ (-1075 : Int) := by
  have half : (2 : Rat) ^ (-1075 : Int) = 2 ^ binary64.quantum / 2 :=
    zpow_sub_one₀ (by decide) (-1074)
  rw [half, ← Format.rounded_eq_zero (f := binary64) (by decide)]
  constructor
  · intro zero
    unfold Format.nearest at zero
    split at zero
    · contradiction
    · exact Value.finite.inj zero
  · intro zero
    have fits : ¬ binary64.Overflows x := by
      rw [Format.overflows_iff (by decide) (by decide), zero, abs_zero, not_le]
      positivity
    rw [Format.nearest, if_neg fits, zero]

theorem nearest_rounded_zero (x : Rat) : binary64.nearest (extended.rounded x) = .finite 0 ↔
    |x| ≤ 2 ^ (-1075 : Int) + 2 ^ (-1139 : Int) := by
  rw [nearest_eq_zero]
  exact Format.abs_rounded_le_iff (f := extended) (by decide) (by decide) x

theorem durationOf_string_exact (s : Bytes) :
    (∀ outside, durationOf outside (.string s) = .ok (expectedDuration (.string s))) ↔
      Json.DurationExact (.string s) := by
  have begins := decimalPrefix_scanNumeral s
  have conversion (outside : Value → Int) (e : Value) :
      durationOf outside (.string s) = .ok e ↔ ∃ v, stold s = .ok v ∧ castDouble v = e :=
    map_eq_ok
  simp only [conversion, forall_const, stold_eq_ok, Json.DurationExact, expectedDuration, begins]
  cases scanNumeral s with
  | none => simp
  | some n =>
    simp only [Option.mem_def, Option.some.injEq, exists_eq_left']
    cases n with
    | infinity | nan => simp [Numeral.DurationExact, castDouble]
    | hexadecimal x =>
      simp only [Numeral.DurationExact, if_neg not_overflows_zero, nearest_zero, ← nearest_rounded_zero]
      constructor
      · rintro ⟨_, ⟨held, rfl⟩, same⟩
        exact ⟨held, same⟩
      · rintro ⟨held, same⟩
        exact ⟨_, ⟨held, rfl⟩, same⟩
    | decimal x =>
      simp only [Numeral.DurationExact]
      constructor
      · rintro ⟨_, ⟨held, rfl⟩, same⟩
        by_cases large : binary64.Overflows x
        · rw [if_pos large] at same
          exact absurd same (nearest_rounded_far large)
        · rw [if_neg large] at same
          exact ⟨held, large, (nearest_rounded large).mp same⟩
      · rintro ⟨held, fits, beside⟩
        rw [if_neg fits]
        exact ⟨_, ⟨held, rfl⟩, (nearest_rounded fits).mpr beside⟩

theorem nearest_wrapInt (i : Int) : .finite (wrapInt i) = binary64.nearest i ↔ InInt i := by
  constructor
  · intro same
    by_cases few : |i| < 2 ^ 53
    · rw [Format.nearest_intCast (f := binary64) (by decide) (by decide) few, Value.finite.injEq]
        at same
      have same_int : wrapInt i = i := by exact_mod_cast same
      exact same_int ▸ wrapInt_inInt i
    · have far : (2 : Rat) ^ (53 : Int) ≤ |(i : Rat)| := by
        have large : ((2 ^ 53 : Int) : Rat) ≤ ((|i| : Int) : Rat) := by
          exact_mod_cast not_lt.mp few
        rw [Int.cast_abs] at large
        refine le_trans (le_of_eq ?_) large
        norm_num
      have kept := Format.le_abs_nearest (f := binary64) (by decide) (by decide) far same.symm
      have range := wrapInt_inInt i
      have small : |(wrapInt i : Rat)| ≤ 2147483648 := by
        unfold InInt at range
        have : |wrapInt i| ≤ 2147483648 := by
          rw [abs_le]
          omega
        exact_mod_cast this
      exact absurd (kept.trans small) (by norm_num)
  · intro inside
    have few : |i| < 2 ^ 53 := by
      unfold InInt at inside
      rw [abs_lt]
      omega
    rw [Format.nearest_intCast (f := binary64) (by decide) (by decide) few, wrapInt_eq inside]

theorem durationOf_exact (j : Json) :
    (∀ outside, durationOf outside j = .ok (expectedDuration j)) ↔ j.DurationExact := by
  cases j with
  | null | boolean | array | object => exact iff_of_true (fun _ => rfl) trivial
  | string s => exact durationOf_string_exact s
  | float x =>
    have conversion (outside : Value → Int) :
        durationOf outside (.float x) = .ok (.finite (castInt outside (.finite x.value))) := rfl
    simp only [conversion, Except.ok.injEq, Json.DurationExact, expectedDuration, Value.finite.injEq]
    constructor
    · intro always
      by_cases inside : InInt (truncate x.value)
      · have same := always fun _ => 0
        rw [castInt, if_pos inside] at same
        exact ⟨inside, same.symm⟩
      · have zero := always fun _ => 0
        have one := always fun _ => 1
        rw [castInt, if_neg inside] at zero one
        exact absurd (zero.trans one.symm) (by norm_num)
    · rintro ⟨inside, whole⟩ outside
      rw [castInt, if_pos inside]
      exact whole.symm
  | integer i =>
    have conversion (outside : Value → Int) :
        durationOf outside (.integer i) = .ok (.finite (wrapInt i)) := rfl
    simp only [conversion, Except.ok.injEq, forall_const, Json.DurationExact, expectedDuration]
    exact nearest_wrapInt i

end Leaves

theorem Numeral.whole_exact {i : Int} (inside : InInt i) :
    (Numeral.decimal i).IntExact ∧ (Numeral.decimal i).DurationExact := by
  have few : |i| < 2 ^ 53 := by
    unfold InInt at inside
    rw [abs_lt]
    omega
  have few' : |i| < 2 ^ 64 := few.trans (by decide)
  have held : InLongDouble i := ⟨Format.not_overflows_intCast (by decide) few',
    Format.not_underflows_intCast (by decide) few'⟩
  have same : extended.rounded i = i := Format.rounded_intCast (by decide) few'
  have range : InInt (truncate i) := by rwa [truncate_intCast]
  have fits : ¬ binary64.Overflows i := Format.not_overflows_intCast (by decide) few
  exact ⟨⟨held, range, (truncate_rounded (inInt_small range)).mp (by rw [same])⟩, held, fits,
    (nearest_rounded fits).mp (by rw [same])⟩

section Documents

/-- Each number field of a document is what it should be: nothing is thrown, and nothing depends
on an undefined conversion. -/
def NumbersExact (fields : List (Bytes × Json)) : Prop :=
  ∃ data, flaten (.object fields) = .ok data ∧ ∀ outside floatText, ∃ res,
    metadataFromDocument outside floatText (.object fields) = .ok res ∧
    res.trackNumber = expectedInt (MetadataField.leaf .trackNumber data) ∧
    res.trackTotal = expectedInt (MetadataField.leaf .trackTotal data) ∧
    res.discNumber = expectedInt (MetadataField.leaf .discNumber data) ∧
    res.discTotal = expectedInt (MetadataField.leaf .discTotal data) ∧
    res.duration = expectedDuration (MetadataField.leaf .duration data)

def LeavesExact (fields : List (Bytes × Json)) : Prop :=
  ∃ data, flaten (.object fields) = .ok data ∧
    (MetadataField.leaf .trackNumber data).IntExact ∧
    (MetadataField.leaf .trackTotal data).IntExact ∧
    (MetadataField.leaf .discNumber data).IntExact ∧
    (MetadataField.leaf .discTotal data).IntExact ∧
    (MetadataField.leaf .duration data).DurationExact

/-- The number fields of a document, of any content, are exact if and only if their leaves are. -/
theorem numbersExact_iff (fields : List (Bytes × Json)) : NumbersExact fields ↔ LeavesExact fields := by
  refine exists_congr fun data => and_congr_right fun flat => ?_
  simp only [document_eq _ _ flat, readFields_all, ← intOf_exact, ← durationOf_exact]
  constructor
  · intro exact
    refine ⟨fun outside => ?_, fun outside => ?_, fun outside => ?_, fun outside => ?_,
      fun outside => ?_⟩
    all_goals
      obtain ⟨res, ⟨-, track, total, disc, discs, duration⟩, track', total', disc', discs',
        duration'⟩ := exact outside fun _ => []
    · rw [track, track']
    · rw [total, total']
    · rw [disc, disc']
    · rw [discs, discs']
    · rw [duration, duration']
  · rintro ⟨track, total, disc, discs, duration⟩ outside floatText
    exact ⟨⟨_, _, _, _, _, _, _, _, _, _⟩, ⟨⟨rfl, rfl, rfl, rfl, rfl⟩, track outside, total outside,
      disc outside, discs outside, duration outside⟩, rfl, rfl, rfl, rfl, rfl⟩

/-- `{"format": {"tags": {"track": "A1"}}}`, as for the first side of a record. -/
def firstSide : List (Bytes × Json) :=
  [(str "format", .object [(str "tags", .object [(str "track", .string (str "A1"))])])]

/-- A track that is not a number is an exception, which nothing catches. -/
theorem firstSide_not_exact : ¬ ∀ fields, NumbersExact fields := by
  intro always
  obtain ⟨data, flat, exact⟩ := always firstSide
  have leaf : MetadataField.leaf .trackNumber data = .string (str "A1") := by
    cases flat
    rfl
  obtain ⟨res, reads, -⟩ := exact (fun _ => 0) fun _ => []
  rw [document_eq _ _ flat] at reads
  obtain ⟨-, track, -⟩ := (readFields_all _ _).mp reads
  have throws : stold (str "A1") = .error ⟨"stold"⟩ := rfl
  rw [leaf, MetadataField.intOf, MetadataField.numberOf, throws] at track
  cases track

end Documents

end HttpAudioServer

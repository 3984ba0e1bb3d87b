import Mathlib.Algebra.Order.Field.Power
import Mathlib.Algebra.Order.Floor.Ring
import Mathlib.Data.Int.Log
import Mathlib.Data.Rat.Floor
import Mathlib.Tactic.FieldSimp
import Mathlib.Tactic.Linarith
import Mathlib.Tactic.NormNum
import Mathlib.Tactic.Positivity
import Mathlib.Tactic.Ring

/-! Binary floating-point numbers as the rationals they stand for. A format rounds to nearest,
ties to even, and signed zeros are one number. -/
namespace FloatingPoint

/-- Ties go to the even neighbour. -/
def toNearest (x : Rat) : Int :=
  let below := ⌊x⌋
  if x - below < 1 / 2 then below
  else if 1 / 2 < x - below then below + 1
  else if below % 2 = 0 then below
  else below + 1

def toMultiple (e : Int) (x : Rat) : Rat := toNearest (x / 2 ^ e) * 2 ^ e

/-- Rounded to some digits, with any exponent. -/
def toPrecision (digits : Nat) (x : Rat) : Rat :=
  if x = 0 then 0 else toMultiple (Int.log 2 |x| + 1 - digits) x

/-- Numbers from `2 ^ least` on have all digits, and they are below `2 ^ limit`. -/
structure Format where
  digits : Nat
  least : Int
  limit : Int

inductive Value where
  | finite (x : Rat)
  | infinite (negative : Bool)
  | nan
deriving DecidableEq

namespace Format

/-- What is smaller than the least normal number is a multiple of the smallest one. -/
def quantum (f : Format) : Int := f.least + 1 - f.digits

def Tiny (f : Format) (x : Rat) : Prop := |toPrecision f.digits x| < 2 ^ f.least

instance (f : Format) (x : Rat) : Decidable (f.Tiny x) := inferInstanceAs (Decidable (_ < _))

def Overflows (f : Format) (x : Rat) : Prop := 2 ^ f.limit ≤ |toPrecision f.digits x|

instance (f : Format) (x : Rat) : Decidable (f.Overflows x) := inferInstanceAs (Decidable (_ ≤ _))

def Underflows (f : Format) (x : Rat) : Prop := f.Tiny x ∧ toMultiple f.quantum x ≠ x

instance (f : Format) (x : Rat) : Decidable (f.Underflows x) := inferInstanceAs (Decidable (_ ∧ _))

def rounded (f : Format) (x : Rat) : Rat :=
  if f.Tiny x then toMultiple f.quantum x else toPrecision f.digits x

def nearest (f : Format) (x : Rat) : Value :=
  if f.Overflows x then .infinite (x < 0) else .finite (f.rounded x)

end Format

def binary64 : Format := ⟨53, -1022, 1024⟩

/-- The extended format of the x87. -/
def extended : Format := ⟨64, -16382, 16384⟩

theorem toNearest_cases (x : Rat) : toNearest x = ⌊x⌋ ∨ (⌊x⌋ < x ∧ toNearest x = ⌊x⌋ + 1) := by
  unfold toNearest
  simp only
  split
  case isTrue => exact .inl rfl
  case isFalse far =>
    have above : (⌊x⌋ : Rat) < x := by linarith
    split
    · exact .inr ⟨above, rfl⟩
    · split
      · exact .inl rfl
      · exact .inr ⟨above, rfl⟩

theorem toNearest_intCast (n : Int) : toNearest n = n := by
  rcases toNearest_cases n with below | ⟨above, -⟩
  · rw [below, Int.floor_intCast]
  · rw [Int.floor_intCast] at above
    exact absurd above (lt_irrefl _)

theorem le_toNearest {x : Rat} {n : Int} (least : (n : Rat) ≤ x) : n ≤ toNearest x := by
  have below : n ≤ ⌊x⌋ := Int.le_floor.mpr least
  rcases toNearest_cases x with same | ⟨-, same⟩ <;> omega

theorem toNearest_le {x : Rat} {n : Int} (greatest : x ≤ n) : toNearest x ≤ n := by
  have below : ⌊x⌋ ≤ n := by
    have := (Int.floor_le x).trans greatest
    exact_mod_cast this
  rcases toNearest_cases x with same | ⟨above, same⟩
  · omega
  · have less : (⌊x⌋ : Rat) < n := above.trans_le greatest
    have : ⌊x⌋ < n := by exact_mod_cast less
    omega

theorem le_abs_toNearest {x : Rat} {n : Int} (far : (n : Rat) ≤ |x|) : n ≤ |toNearest x| := by
  rcases le_abs.mp far with right | left
  · exact (le_toNearest right).trans (le_abs_self _)
  · have low : x ≤ ((-n : Int) : Rat) := by
      push_cast
      linarith
    have := toNearest_le low
    exact (by omega : n ≤ -toNearest x).trans (neg_le_abs _)

theorem abs_toNearest_le {x : Rat} {n : Int} (near : |x| ≤ n) : |toNearest x| ≤ n := by
  obtain ⟨low, high⟩ := abs_le.mp near
  have low' : ((-n : Int) : Rat) ≤ x := by exact_mod_cast low
  exact abs_le.mpr ⟨le_toNearest low', toNearest_le high⟩

theorem toMultiple_multiple {e : Int} (n : Int) : toMultiple e (n * 2 ^ e) = n * 2 ^ e := by
  have positive : (2 : Rat) ^ e ≠ 0 := by positivity
  rw [toMultiple, mul_div_cancel_right₀ _ positive, toNearest_intCast]

theorem toPrecision_intCast {digits : Nat} {n : Int} (few : |n| < 2 ^ digits) :
    toPrecision digits n = n := by
  unfold toPrecision
  split
  case isTrue zero => exact zero.symm
  case isFalse nonzero =>
    have positive : 0 < |(n : Rat)| := abs_pos.mpr nonzero
    have small : Int.log 2 |(n : Rat)| < digits := by
      by_contra large
      have power := (Int.zpow_le_iff_le_log (b := 2) (by decide) positive).mpr (not_lt.mp large)
      rw [zpow_natCast] at power
      have : (2 : Rat) ^ digits ≤ ((|n| : Int) : Rat) := by
        rw [Int.cast_abs]
        exact_mod_cast power
      have : (2 : Int) ^ digits ≤ |n| := by exact_mod_cast this
      omega
    obtain ⟨k, exponent⟩ : ∃ k : Nat, Int.log 2 |(n : Rat)| + 1 - digits = -k :=
      ⟨(digits - (Int.log 2 |(n : Rat)| + 1)).toNat, by omega⟩
    have multiple : (n : Rat) = ((n * 2 ^ k : Int) : Rat) * 2 ^ (-k : Int) := by
      rw [zpow_neg, zpow_natCast]
      push_cast
      field_simp
    rw [exponent]
    conv_lhs => rw [multiple]
    rw [toMultiple_multiple, ← multiple]

/-- Rounding does not cross a power of two. -/
theorem le_abs_toPrecision {digits : Nat} {x : Rat} {k : Int} (some_digit : 0 < digits)
    (far : (2 : Rat) ^ k ≤ |x|) : (2 : Rat) ^ k ≤ |toPrecision digits x| := by
  have positive : 0 < |x| := lt_of_lt_of_le (by positivity) far
  unfold toPrecision
  rw [if_neg (abs_pos.mp positive)]
  have top := Int.zpow_log_le_self (b := 2) (by decide) positive
  have order := (Int.zpow_le_iff_le_log (b := 2) (by decide) positive).mp (by exact_mod_cast far)
  generalize Int.log 2 |x| = l at top order
  obtain ⟨d, rfl⟩ : ∃ d, digits = d + 1 := ⟨digits - 1, by omega⟩
  have exponent : l + 1 - ((d + 1 : Nat) : Int) = l - d := by
    push_cast
    ring
  rw [exponent, toMultiple, abs_mul, abs_of_pos (show (0 : Rat) < 2 ^ (l - d) by positivity)]
  have scaled : (((2 : Int) ^ d : Int) : Rat) ≤ |x / 2 ^ (l - d)| := by
    rw [abs_div, abs_of_pos (show (0 : Rat) < 2 ^ (l - d) by positivity), le_div_iff₀ (by positivity)]
    push_cast
    rw [← zpow_natCast, ← zpow_add₀ (by decide), add_sub_cancel]
    exact_mod_cast top
  have kept := le_abs_toNearest scaled
  calc (2 : Rat) ^ k ≤ 2 ^ l := zpow_le_zpow_right₀ (by norm_num) order
    _ = ((2 ^ d : Int) : Rat) * 2 ^ (l - d) := by
        push_cast
        rw [← zpow_natCast, ← zpow_add₀ (by decide), add_sub_cancel]
    _ ≤ |(toNearest (x / 2 ^ (l - d)) : Rat)| * 2 ^ (l - d) := by
        refine mul_le_mul_of_nonneg_right ?_ (by positivity)
        exact_mod_cast kept

theorem abs_toPrecision_le {digits : Nat} {x : Rat} {k : Int} (some_digit : 0 < digits)
    (near : |x| ≤ (2 : Rat) ^ k) : |toPrecision digits x| ≤ (2 : Rat) ^ k := by
  unfold toPrecision
  split
  case isTrue => rw [abs_zero]; positivity
  case isFalse nonzero =>
    have positive : 0 < |x| := abs_pos.mpr nonzero
    have top := Int.zpow_log_le_self (b := 2) (by decide) positive
    have order : Int.log 2 |x| ≤ k :=
      (zpow_le_zpow_iff_right₀ (by norm_num : (1 : Rat) < 2)).mp (by exact_mod_cast top.trans near)
    obtain ⟨n, exponent⟩ : ∃ n : Nat, k = n + (Int.log 2 |x| + 1 - digits) :=
      ⟨(k - (Int.log 2 |x| + 1 - digits)).toNat, by omega⟩
    generalize Int.log 2 |x| + 1 - digits = e at exponent ⊢
    have unit : (0 : Rat) < 2 ^ e := by positivity
    have scaled : |x / 2 ^ e| ≤ (((2 : Int) ^ n : Int) : Rat) := by
      rw [abs_div, abs_of_pos unit, div_le_iff₀ unit]
      push_cast
      rw [← zpow_natCast, ← zpow_add₀ (by decide), ← exponent]
      exact near
    have kept := abs_toNearest_le scaled
    calc |toMultiple e x| = |(toNearest (x / 2 ^ e) : Rat)| * 2 ^ e := by
          rw [toMultiple, abs_mul, abs_of_pos unit]
      _ ≤ ((2 ^ n : Int) : Rat) * 2 ^ e := by
          refine mul_le_mul_of_nonneg_right ?_ unit.le
          exact_mod_cast kept
      _ = 2 ^ k := by
          push_cast
          rw [← zpow_natCast, ← zpow_add₀ (by decide), ← exponent]

namespace Format

variable {f : Format}

theorem le_abs_rounded {x : Rat} {k : Int} (some_digit : 0 < f.digits) (normal : f.least ≤ k)
    (far : (2 : Rat) ^ k ≤ |x|) : (2 : Rat) ^ k ≤ |f.rounded x| := by
  have kept := le_abs_toPrecision some_digit far
  have not_tiny : ¬ f.Tiny x := not_lt.mpr ((zpow_le_zpow_right₀ (by norm_num) normal).trans kept)
  rwa [rounded, if_neg not_tiny]

theorem le_abs_nearest {x y : Rat} {k : Int} (some_digit : 0 < f.digits) (normal : f.least ≤ k)
    (far : (2 : Rat) ^ k ≤ |x|) (result : f.nearest x = .finite y) : (2 : Rat) ^ k ≤ |y| := by
  unfold nearest at result
  split at result
  · contradiction
  · cases result
    exact le_abs_rounded some_digit normal far

theorem rounded_intCast {n : Int} (least : f.least ≤ 0) (few : |n| < 2 ^ f.digits) :
    f.rounded n = n := by
  have exact := toPrecision_intCast few
  rw [rounded]
  split
  case isFalse => rw [exact]
  case isTrue tiny =>
    rw [Tiny, exact] at tiny
    have below_one : |(n : Rat)| < 1 :=
      tiny.trans_le (zpow_le_one_of_nonpos₀ (by norm_num) least)
    have zero : n = 0 := Int.abs_lt_one_iff.mp (by exact_mod_cast below_one)
    have multiple := toMultiple_multiple (e := f.quantum) 0
    rw [zero]
    simpa using multiple

theorem not_overflows_intCast {n : Int} (limit : f.digits ≤ f.limit) (few : |n| < 2 ^ f.digits) :
    ¬ f.Overflows n := by
  rw [Overflows, toPrecision_intCast few, not_le]
  calc |(n : Rat)| < 2 ^ f.digits := by exact_mod_cast few
    _ ≤ 2 ^ f.limit := by
      rw [← zpow_natCast]
      exact zpow_le_zpow_right₀ (by norm_num) limit

theorem not_underflows_intCast {n : Int} (least : f.least ≤ 0) (few : |n| < 2 ^ f.digits) :
    ¬ f.Underflows n := by
  rintro ⟨tiny, inexact⟩
  have exact := rounded_intCast least few
  rw [rounded, if_pos tiny] at exact
  exact inexact exact

theorem nearest_intCast {n : Int} (least : f.least ≤ 0) (limit : f.digits ≤ f.limit)
    (few : |n| < 2 ^ f.digits) : f.nearest n = .finite n := by
  rw [nearest, if_neg (not_overflows_intCast limit few), rounded_intCast least few]

theorem two_le_of_overflows {x : Rat} (some_digit : 0 < f.digits) (limit : 1 < f.limit)
    (large : f.Overflows x) : 2 ≤ |x| := by
  by_contra small
  have near : |x| ≤ (2 : Rat) ^ (1 : Int) := by
    rw [zpow_one]
    exact (not_le.mp small).le
  have kept := large.trans (abs_toPrecision_le some_digit near)
  exact absurd ((zpow_le_zpow_iff_right₀ (by norm_num : (1 : Rat) < 2)).mp kept) (not_le.mpr limit)

end Format

end FloatingPoint

import HttpAudioServer.Library.FloatingPoint

/-! A number that is rounded to one format and from there to a shorter one. The result is another
one than that of rounding once only beside a tie of the shorter format: if the first step goes to the
tie, and the even neighbour is on its other side. -/
namespace FloatingPoint

section Ties

variable {x : Rat} {n : Int}

theorem toNearest_below (least : (n : Rat) ≤ x) (near : x < n + 1 / 2) : toNearest x = n := by
  have below : ⌊x⌋ = n := Int.floor_eq_iff.mpr ⟨least, by linarith⟩
  unfold toNearest
  simp only [below]
  rw [if_pos (by linarith)]

theorem toNearest_above (near : (n : Rat) + 1 / 2 < x) (greatest : x ≤ n + 1) :
    toNearest x = n + 1 := by
  rcases greatest.eq_or_lt with rfl | inside
  · exact_mod_cast toNearest_intCast (n + 1)
  · have below : ⌊x⌋ = n := Int.floor_eq_iff.mpr ⟨by linarith, inside⟩
    unfold toNearest
    simp only [below]
    rw [if_neg (by linarith), if_pos (by linarith)]

theorem toNearest_tie (n : Int) : toNearest (n + 1 / 2) = if n % 2 = 0 then n else n + 1 := by
  have below : ⌊(n : Rat) + 1 / 2⌋ = n := Int.floor_eq_iff.mpr ⟨by linarith, by linarith⟩
  unfold toNearest
  simp only [below, add_sub_cancel_left, lt_irrefl, if_false]

theorem toNearest_neg (x : Rat) : toNearest (-x) = -toNearest x := by
  have below := Int.floor_le x
  have above := Int.lt_floor_add_one x
  generalize ⌊x⌋ = n at below above
  have turned : ((-n - 1 : Int) : Rat) = -n - 1 := by push_cast; rfl
  rcases lt_trichotomy x (n + 1 / 2) with near | rfl | far
  · rw [toNearest_below below near]
    rcases below.eq_or_lt with rfl | inside
    · exact_mod_cast toNearest_intCast (-n)
    · rw [toNearest_above (n := -n - 1) (by rw [turned]; linarith) (by rw [turned]; linarith)]
      ring
  · rw [toNearest_tie, show -((n : Rat) + 1 / 2) = (-n - 1 : Int) + 1 / 2 by rw [turned]; ring,
      toNearest_tie]
    split <;> split <;> omega
  · rw [toNearest_above far above.le,
      toNearest_below (n := -n - 1) (by rw [turned]; linarith) (by rw [turned]; linarith)]
    ring

theorem le_toNearest_iff (even : n % 2 = 0) : n ≤ toNearest x ↔ (n : Rat) - 1 / 2 ≤ x := by
  have before : ((n - 1 : Int) : Rat) = n - 1 := by push_cast; rfl
  constructor
  · intro reached
    by_contra low
    rw [not_le] at low
    rcases le_or_gt x (n - 1) with far | inside
    · have := toNearest_le (before ▸ far)
      omega
    · rw [toNearest_below (n := n - 1) (by rw [before]; linarith) (by rw [before]; linarith)]
        at reached
      omega
  · intro near
    rcases le_or_gt (n : Rat) x with least | inside
    · exact le_toNearest least
    · rcases near.eq_or_lt with rfl | close
      · have tie := toNearest_tie (n - 1)
        rw [before, show (n : Rat) - 1 + 1 / 2 = n - 1 / 2 by ring, if_neg (by omega)] at tie
        omega
      · rw [toNearest_above (n := n - 1) (by rw [before]; linarith) (by rw [before]; linarith)]
        omega

theorem toNearest_le_iff (even : n % 2 = 0) : toNearest x ≤ n ↔ x ≤ n + 1 / 2 := by
  have mirrored := le_toNearest_iff (x := -x) (n := -n) (by omega)
  rw [toNearest_neg, neg_le_neg_iff] at mirrored
  rw [mirrored]
  push_cast
  constructor <;> intro <;> linarith

theorem toNearest_eq_zero : toNearest x = 0 ↔ |x| ≤ 1 / 2 := by
  have low := le_toNearest_iff (x := x) (n := 0) rfl
  have high := toNearest_le_iff (x := x) (n := 0) rfl
  rw [Int.cast_zero, zero_sub] at low
  rw [Int.cast_zero, zero_add] at high
  rw [abs_le, ← low, ← high]
  omega

end Ties

section Steps

variable {x y u : Rat} {n : Int}

theorem toNearest_div_below (unit : 0 < u) (least : n * u ≤ y) (near : y < (n + 1 / 2) * u) :
    toNearest (y / u) = n :=
  toNearest_below ((le_div_iff₀ unit).mpr least) ((div_lt_iff₀ unit).mpr near)

theorem toNearest_div_above (unit : 0 < u) (near : (n + 1 / 2) * u < y) (greatest : y ≤ (n + 1) * u) :
    toNearest (y / u) = n + 1 :=
  toNearest_above ((lt_div_iff₀ unit).mpr near) ((div_le_iff₀ unit).mpr greatest)

theorem toNearest_div_tie (unit : 0 < u) :
    toNearest ((n + 1 / 2) * u / u) = if n % 2 = 0 then n else n + 1 := by
  rw [mul_div_cancel_right₀ _ unit.ne', toNearest_tie]

/-- Rounding to a multiple of a unit reaches an even multiple from a half below it on. -/
theorem even_le_multiple (unit : 0 < u) (even : n % 2 = 0) :
    n * u ≤ toNearest (x / u) * u ↔ n * u - u / 2 ≤ x := by
  rw [mul_le_mul_iff_left₀ unit, Int.cast_le, le_toNearest_iff even, le_div_iff₀ unit]
  constructor <;> intro <;> linarith

theorem multiple_le_even (unit : 0 < u) (even : n % 2 = 0) :
    toNearest (x / u) * u ≤ n * u ↔ x ≤ n * u + u / 2 := by
  rw [mul_le_mul_iff_left₀ unit, Int.cast_le, toNearest_le_iff even, div_le_iff₀ unit]
  constructor <;> intro <;> linarith

theorem le_multiple (unit : 0 < u) (least : n * u ≤ x) : n * u ≤ toNearest (x / u) * u := by
  refine mul_le_mul_of_nonneg_right ?_ unit.le
  exact_mod_cast le_toNearest ((le_div_iff₀ unit).mpr least)

theorem multiple_le (unit : 0 < u) (greatest : x ≤ n * u) : toNearest (x / u) * u ≤ n * u := by
  refine mul_le_mul_of_nonneg_right ?_ unit.le
  exact_mod_cast toNearest_le ((div_le_iff₀ unit).mpr greatest)

/-- `x` is beside the tie of two multiples of `u`, and its nearest multiple of `v` is the tie, which
goes to the multiple that is farther from `x`. -/
def BesideTie (v u x : Rat) : Prop :=
  x ≠ (⌊x / u⌋ + 1 / 2) * u ∧ |x - (⌊x / u⌋ + 1 / 2) * u| ≤ v / 2 ∧
    (x < (⌊x / u⌋ + 1 / 2) * u ↔ ⌊x / u⌋ % 2 = 1)

theorem not_besideTie {v : Rat} (fine : 0 < v) (coarse : 4 * v ≤ u) (nonneg : 0 ≤ x) (near : x ≤ v) :
    ¬ BesideTie v u x := by
  rintro ⟨-, close, -⟩
  have first : ⌊x / u⌋ = 0 :=
    Int.floor_eq_zero_iff.mpr ⟨div_nonneg nonneg (by linarith),
      (div_lt_one (by linarith)).mpr (by linarith)⟩
  rw [first, Int.cast_zero, zero_add] at close
  linarith [(abs_le.mp close).1]

/-- Rounding to a multiple of the smaller unit first. -/
theorem multiple_twice {v : Rat} {d : Nat} (digits : 2 ≤ d) (fine : 0 < v) (x : Rat) :
    toNearest (toNearest (x / v) * v / (2 ^ d * v)) = toNearest (x / (2 ^ d * v)) ↔
      ¬ BesideTie v (2 ^ d * v) x := by
  have unit : 0 < 2 ^ d * v := by positivity
  have least := (le_div_iff₀ unit).mp (Int.floor_le (x / (2 ^ d * v)))
  have greatest := ((div_lt_iff₀ unit).mp (Int.lt_floor_add_one (x / (2 ^ d * v)))).le
  unfold BesideTie
  generalize ⌊x / (2 ^ d * v)⌋ = n at least greatest
  -- The tie is an even multiple of the smaller unit, and so are its neighbours.
  obtain ⟨k, rfl⟩ : ∃ k, d = k + 2 := ⟨d - 2, by omega⟩
  have low := even_le_multiple (x := x) (n := (2 * n + 1) * 2 ^ k * 2) fine (by omega)
  have high := multiple_le_even (x := x) (n := (2 * n + 1) * 2 ^ k * 2) fine (by omega)
  have tie : (((2 * n + 1) * 2 ^ k * 2 : Int) : Rat) * v = (n + 1 / 2) * (2 ^ (k + 2) * v) := by
    push_cast
    ring
  rw [tie] at low high
  have below : ((n * 2 ^ (k + 2) : Int) : Rat) * v = n * (2 ^ (k + 2) * v) := by
    push_cast
    ring
  have least' := le_multiple (x := x) (n := n * 2 ^ (k + 2)) fine (below ▸ least)
  have above : (((n + 1) * 2 ^ (k + 2) : Int) : Rat) * v = (n + 1) * (2 ^ (k + 2) * v) := by
    push_cast
    ring
  have greatest' := multiple_le (x := x) (n := (n + 1) * 2 ^ (k + 2)) fine (above ▸ greatest)
  rw [below] at least'
  rw [above] at greatest'
  generalize 2 ^ (k + 2) * v = u at *
  generalize toNearest (x / v) * v = y at *
  rcases lt_trichotomy x ((n + 1 / 2) * u) with before | same | beyond
  · rw [toNearest_div_below unit least before]
    by_cases near : (n + 1 / 2) * u - v / 2 ≤ x
    · have close : |x - (n + 1 / 2) * u| ≤ v / 2 := abs_le.mpr ⟨by linarith, by linarith⟩
      rw [le_antisymm (high.mpr (by linarith)) (low.mpr near), toNearest_div_tie unit]
      simp only [before.ne, before, close, ne_eq, not_false_eq_true, true_and, true_iff]
      split <;> omega
    · rw [toNearest_div_below unit least' (not_le.mp (mt low.mp near))]
      exact iff_of_true rfl fun beside => near (by linarith [(abs_le.mp beside.2.1).1])
  · rw [le_antisymm (high.mpr (by linarith)) (low.mpr (by linarith)), ← same]
    exact iff_of_true rfl fun beside => beside.1 rfl
  · rw [toNearest_div_above unit beyond greatest]
    by_cases near : x ≤ (n + 1 / 2) * u + v / 2
    · have close : |x - (n + 1 / 2) * u| ≤ v / 2 := abs_le.mpr ⟨by linarith, by linarith⟩
      rw [le_antisymm (high.mpr near) (low.mpr (by linarith)), toNearest_div_tie unit]
      simp only [beyond.ne', beyond.not_gt, close, ne_eq, not_false_eq_true, true_and, false_iff]
      split <;> omega
    · rw [toNearest_div_above unit (not_le.mp (mt high.mp near)) greatest']
      exact iff_of_true rfl fun beside => near (by linarith [(abs_le.mp beside.2.1).2])

end Steps

section Multiples

variable {x : Rat} {e k : Int}

theorem toMultiple_neg (e : Int) (x : Rat) : toMultiple e (-x) = -toMultiple e x := by
  rw [toMultiple, neg_div, toNearest_neg, Int.cast_neg, neg_mul, toMultiple]

theorem toPrecision_neg (digits : Nat) (x : Rat) : toPrecision digits (-x) = -toPrecision digits x := by
  unfold toPrecision
  simp only [neg_eq_zero, abs_neg, toMultiple_neg]
  split <;> simp

theorem zpow_multiple (fine : e ≤ k) : ∃ n : Int, (n : Rat) * 2 ^ e = 2 ^ k := by
  obtain ⟨d, rfl⟩ : ∃ d : Nat, k = d + e := ⟨(k - e).toNat, by omega⟩
  refine ⟨2 ^ d, ?_⟩
  push_cast
  rw [← zpow_natCast, ← zpow_add₀ (by decide)]

theorem toMultiple_zpow (fine : e ≤ k) : toMultiple e (2 ^ k) = 2 ^ k := by
  obtain ⟨n, same⟩ := zpow_multiple fine
  rw [← same, toMultiple_multiple]

theorem toMultiple_le_zpow (fine : e ≤ k) (near : x ≤ 2 ^ k) : toMultiple e x ≤ 2 ^ k := by
  obtain ⟨n, same⟩ := zpow_multiple fine
  rw [← same] at near ⊢
  exact multiple_le (by positivity) near

theorem zpow_le_toMultiple (fine : e ≤ k) (far : 2 ^ k ≤ x) : 2 ^ k ≤ toMultiple e x := by
  obtain ⟨n, same⟩ := zpow_multiple fine
  rw [← same] at far ⊢
  exact le_multiple (by positivity) far

theorem toMultiple_coarser (fine : e < k) (near : x ≤ 2 ^ k) (up : 2 ^ k ≤ toMultiple e x) :
    toMultiple (e + 1) x = 2 ^ k := by
  refine le_antisymm (toMultiple_le_zpow fine near) ?_
  obtain ⟨n, same⟩ := zpow_multiple (Int.add_one_le_of_lt fine)
  have double : (2 : Rat) ^ (e + 1) = 2 * 2 ^ e := by
    rw [zpow_add_one₀ (by decide), mul_comm]
  have unit : (0 : Rat) < 2 ^ e := by positivity
  have half : ((2 * n : Int) : Rat) * 2 ^ e = 2 ^ k := by
    rw [← same, double]
    push_cast
    ring
  have close := (even_le_multiple (x := x) (n := 2 * n) unit (by omega)).mp (half.trans_le up)
  rw [half, ← same, double] at close
  rw [← same, toMultiple, double]
  refine mul_le_mul_of_nonneg_right ?_ (by positivity)
  have above : (n : Rat) - 1 / 2 < x / (2 * 2 ^ e) := by
    rw [lt_div_iff₀ (by positivity)]
    linarith
  rcases le_or_gt (n : Rat) (x / (2 * 2 ^ e)) with least | inside
  · exact_mod_cast le_toNearest least
  · have before : ((n - 1 : Int) : Rat) = n - 1 := by push_cast; rfl
    rw [toNearest_above (n := n - 1) (by rw [before]; linarith) (by rw [before]; linarith)]
    push_cast
    linarith

theorem abs_toMultiple_le (fine : e ≤ k) (near : |x| ≤ 2 ^ k) : |toMultiple e x| ≤ 2 ^ k := by
  obtain ⟨low, high⟩ := abs_le.mp near
  have mirrored := toMultiple_le_zpow (x := -x) fine (by linarith)
  rw [toMultiple_neg] at mirrored
  exact abs_le.mpr ⟨by linarith, toMultiple_le_zpow fine high⟩

end Multiples

namespace Format

variable {f : Format} {x : Rat} {k : Int}

theorem tiny_neg : f.Tiny (-x) ↔ f.Tiny x := by
  rw [Tiny, toPrecision_neg, abs_neg, Tiny]

theorem rounded_neg (x : Rat) : f.rounded (-x) = -f.rounded x := by
  simp only [rounded, tiny_neg, toMultiple_neg, toPrecision_neg]
  split <;> rfl

def lastDigit (f : Format) (k : Int) : Int := max (k + 1 - f.digits) f.quantum

theorem log_of_binade (least : 2 ^ k ≤ x) (below : x < 2 ^ (k + 1)) : Int.log 2 |x| = k := by
  have positive : 0 < x := lt_of_lt_of_le (by positivity) least
  rw [abs_of_pos positive]
  have low := (Int.zpow_le_iff_le_log (b := 2) (by decide) positive).mp (by exact_mod_cast least)
  have high := (Int.lt_zpow_iff_log_lt (b := 2) (by decide) positive).mp (by exact_mod_cast below)
  omega

theorem binade_of_pos (positive : 0 < x) :
    2 ^ Int.log 2 |x| ≤ x ∧ x < 2 ^ (Int.log 2 |x| + 1) := by
  rw [abs_of_pos positive]
  exact ⟨by exact_mod_cast Int.zpow_log_le_self (b := 2) (by decide) positive,
    by exact_mod_cast Int.lt_zpow_succ_log_self (b := 2) (by decide) x⟩

theorem rounded_inside (some_digit : 0 < f.digits) (least : 2 ^ k ≤ x) (below : x < 2 ^ (k + 1)) :
    f.rounded x = toMultiple (f.lastDigit k) x := by
  have positive : 0 < x := lt_of_lt_of_le (by positivity) least
  have precise : toPrecision f.digits x = toMultiple (k + 1 - f.digits) x := by
    rw [toPrecision, if_neg positive.ne', log_of_binade least below]
  have kept := le_abs_toPrecision some_digit (least.trans (le_abs_self x))
  have quantum : f.quantum = f.least + 1 - f.digits := rfl
  unfold rounded
  split
  case isTrue tiny =>
    have small : k < f.least :=
      (zpow_lt_zpow_iff_right₀ (by norm_num : (1 : Rat) < 2)).mp (kept.trans_lt tiny)
    rw [lastDigit, max_eq_right (by omega)]
  case isFalse large =>
    rcases le_or_gt f.least k with normal | small
    · rw [precise, lastDigit, max_eq_left (by omega)]
    · -- The number is rounded up to the least normal one.
      have near := toMultiple_le_zpow (e := k + 1 - f.digits) (by omega) below.le
      have reached : 2 ^ f.least ≤ toMultiple (k + 1 - f.digits) x := by
        have size := not_lt.mp large
        rwa [precise, abs_of_pos] at size
        exact lt_of_lt_of_le (by positivity) (zpow_le_toMultiple (by omega) least)
      have order : f.least ≤ k + 1 :=
        (zpow_le_zpow_iff_right₀ (by norm_num : (1 : Rat) < 2)).mp (reached.trans near)
      have unit : f.quantum = k + 1 - f.digits + 1 := by omega
      have top : 2 ^ (k + 1) ≤ toMultiple (k + 1 - f.digits) x :=
        (zpow_le_zpow_right₀ (by norm_num) (by omega)).trans reached
      rw [precise, lastDigit, max_eq_right (by omega), unit, le_antisymm near top]
      exact (toMultiple_coarser (by omega) below.le top).symm

theorem rounded_binade (some_digit : 0 < f.digits) (least : 2 ^ k ≤ x) (greatest : x ≤ 2 ^ (k + 1)) :
    f.rounded x = toMultiple (f.lastDigit k) x := by
  rcases greatest.eq_or_lt with rfl | below
  · rw [rounded_inside some_digit le_rfl (zpow_lt_zpow_right₀ (by norm_num) (by omega))]
    by_cases coarse : k + 1 < f.quantum
    · rw [lastDigit, lastDigit, max_eq_right (by omega), max_eq_right (by omega)]
    · rw [toMultiple_zpow, toMultiple_zpow] <;> rw [lastDigit] <;> omega
  · exact rounded_inside some_digit least below

def unit (f : Format) (x : Rat) : Rat := 2 ^ f.lastDigit (Int.log 2 |x|)

@[simp] theorem unit_neg (x : Rat) : f.unit (-x) = f.unit x := by
  rw [unit, abs_neg, unit]

theorem unit_pos (f : Format) (x : Rat) : 0 < f.unit x := by
  unfold unit
  positivity

theorem rounded_zero (f : Format) : f.rounded 0 = 0 := by
  have multiple := toMultiple_multiple (e := f.quantum) 0
  rw [rounded, toPrecision, if_pos rfl]
  simp only [Int.cast_zero, zero_mul] at multiple
  simp [multiple]

theorem rounded_pos (some_digit : 0 < f.digits) (positive : 0 < x) :
    f.rounded x = toNearest (x / f.unit x) * f.unit x := by
  obtain ⟨least, below⟩ := binade_of_pos positive
  exact rounded_inside some_digit least below

@[elab_as_elim]
theorem of_pos {motive : Rat → Prop} (zero : motive 0) (pos : ∀ x, 0 < x → motive x)
    (neg : ∀ x, motive x → motive (-x)) (x : Rat) : motive x := by
  rcases lt_trichotomy x 0 with left | rfl | right
  · exact neg_neg x ▸ neg (-x) (pos (-x) (neg_pos.mpr left))
  · exact zero
  · exact pos x right

theorem rounded_eq_zero (some_digit : 0 < f.digits) (x : Rat) :
    f.rounded x = 0 ↔ |x| ≤ 2 ^ f.quantum / 2 := by
  induction x using of_pos with
  | zero => exact iff_of_true f.rounded_zero (by rw [abs_zero]; positivity)
  | pos x positive =>
    have unit := f.unit_pos x
    rw [rounded_pos some_digit positive, mul_eq_zero, or_iff_left unit.ne', Int.cast_eq_zero,
      toNearest_eq_zero, abs_div, abs_of_pos unit, div_le_iff₀ unit, Format.unit, lastDigit]
    rcases le_total (Int.log 2 |x| + 1 - f.digits) f.quantum with coarse | fine
    · rw [max_eq_right coarse]
      constructor <;> intro <;> linarith
    · rw [max_eq_left fine]
      have least := (binade_of_pos positive).1
      rw [abs_of_pos positive] at least fine ⊢
      have digit : (2 : Rat) ^ (Int.log 2 x + 1 - f.digits) ≤ 2 ^ Int.log 2 x :=
        zpow_le_zpow_right₀ (by norm_num) (by omega)
      have small : (2 : Rat) ^ f.quantum ≤ 2 ^ (Int.log 2 x + 1 - f.digits) :=
        zpow_le_zpow_right₀ (by norm_num) fine
      have size : (0 : Rat) < 2 ^ (Int.log 2 x + 1 - f.digits) := by positivity
      exact iff_of_false (by linarith) (by linarith)
  | neg x same => rwa [rounded_neg, neg_eq_zero, abs_neg]

theorem overflows_iff (some_digit : 0 < f.digits) (order : f.least < f.limit) :
    f.Overflows x ↔ 2 ^ f.limit ≤ |f.rounded x| := by
  by_cases tiny : f.Tiny x
  · have far : (2 : Rat) ^ f.least < 2 ^ f.limit := zpow_lt_zpow_right₀ (by norm_num) order
    have near : |x| ≤ 2 ^ f.least :=
      (not_le.mp fun large => absurd tiny (not_lt.mpr (le_abs_toPrecision some_digit large))).le
    have fine : f.quantum ≤ f.least := by
      unfold quantum
      omega
    rw [rounded, if_pos tiny]
    exact iff_of_false (not_le.mpr (tiny.trans far))
      (not_le.mpr ((abs_toMultiple_le fine near).trans_lt far))
  · rw [Overflows, rounded, if_neg tiny]

/-- A number is rounded up to an integer from half a unit below it on. -/
theorem floor_rounded (some_digits : 2 ≤ f.digits) (fine : f.quantum < 0) (nonneg : 0 ≤ x)
    (small : x < 2 ^ ((f.digits : Int) - 1)) :
    ⌊f.rounded x⌋ = ⌊x⌋ ↔ f.unit x / 2 < ⌊x⌋ + 1 - x := by
  rcases nonneg.eq_or_lt with rfl | positive
  · have less : f.unit 0 < 1 := by
      rw [unit, abs_zero, Int.log_zero_right]
      refine zpow_lt_one_of_neg₀ (by norm_num) ?_
      unfold lastDigit
      omega
    rw [rounded_zero, Int.floor_zero]
    exact iff_of_true rfl (by norm_num; linarith)
  · have order : Int.log 2 |x| < f.digits - 1 := (zpow_lt_zpow_iff_right₀ (by norm_num)).mp
      ((binade_of_pos positive).1.trans_lt small)
    obtain ⟨m, last⟩ : ∃ m : Nat, f.lastDigit (Int.log 2 |x|) = -((m + 1 : Nat) : Int) := by
      refine ⟨(-f.lastDigit (Int.log 2 |x|) - 1).toNat, ?_⟩
      unfold lastDigit
      omega
    -- An integer is an even multiple of the unit.
    have whole : ∀ t : Int, ((t * 2 ^ m * 2 : Int) : Rat) * f.unit x = t := by
      intro t
      rw [unit, last, zpow_neg, zpow_natCast]
      push_cast
      field_simp
      ring
    have unit := f.unit_pos x
    have least := le_multiple (x := x) (n := ⌊x⌋ * 2 ^ m * 2) unit
      ((whole ⌊x⌋).trans_le (Int.floor_le x))
    have next := even_le_multiple (x := x) (n := (⌊x⌋ + 1) * 2 ^ m * 2) unit (by omega)
    rw [whole] at least next
    rw [← rounded_pos (by omega) positive] at least next
    push_cast at next
    rw [Int.floor_eq_iff, and_iff_right least, ← not_le, next, not_le]
    constructor <;> intro <;> linarith

theorem abs_rounded_le_iff (some_digits : 2 ≤ f.digits) (normal : f.least ≤ k) (x : Rat) :
    |f.rounded x| ≤ 2 ^ k ↔ |x| ≤ 2 ^ k + 2 ^ (k - f.digits) := by
  have size : (0 : Rat) < 2 ^ k := by positivity
  have half : (0 : Rat) < 2 ^ (k - f.digits) := by positivity
  induction x using of_pos with
  | zero =>
    rw [rounded_zero, abs_zero]
    exact iff_of_true size.le (by linarith)
  | pos x positive =>
    obtain ⟨least, below⟩ := binade_of_pos positive
    rw [abs_of_pos positive]
    rcases le_or_gt x (2 ^ k) with near | far
    · have order : Int.log 2 |x| ≤ k :=
        (zpow_le_zpow_iff_right₀ (by norm_num : (1 : Rat) < 2)).mp (least.trans near)
      have fine : f.lastDigit (Int.log 2 |x|) ≤ k := by
        unfold lastDigit quantum
        omega
      rw [rounded_inside (by omega) least below]
      exact iff_of_true (abs_toMultiple_le fine (by rwa [abs_of_pos positive])) (by linarith)
    · rcases le_or_gt (2 ^ (k + 1)) x with large | inside
      · have kept := le_abs_rounded (f := f) (by omega) (by omega) (large.trans (le_abs_self x))
        have less : (2 : Rat) ^ (k - f.digits) < 2 ^ k := zpow_lt_zpow_right₀ (by norm_num) (by omega)
        rw [zpow_add_one₀ (by decide)] at kept large
        exact iff_of_false (by linarith) (by linarith)
      · have last : f.lastDigit k = k - f.digits + 1 := by
          unfold lastDigit quantum
          omega
        have kept := zpow_le_toMultiple (e := f.lastDigit k) (by omega) far.le
        have double : (2 : Rat) ^ f.lastDigit k = 2 * 2 ^ (k - f.digits) := by
          rw [last, zpow_add_one₀ (by decide), mul_comm]
        obtain ⟨n, same⟩ := zpow_multiple (e := f.lastDigit k + 1) (k := k) (by omega)
        have even : ((n * 2 : Int) : Rat) * 2 ^ f.lastDigit k = 2 ^ k := by
          rw [← same, zpow_add_one₀ (by decide)]
          push_cast
          ring
        have down := multiple_le_even (x := x) (n := n * 2) (u := 2 ^ f.lastDigit k) (by positivity)
          (by omega)
        rw [even, double, mul_div_cancel_left₀ _ two_ne_zero, ← double] at down
        rw [rounded_inside (by omega) far.le inside, abs_of_pos (size.trans_le kept)]
        exact down
  | neg x same => rwa [rounded_neg, abs_neg, abs_neg]

section Wider

variable {wide : Format} (digits : f.digits + 2 ≤ wide.digits) (quanta : wide.quantum + 2 ≤ f.quantum)
include digits quanta

theorem unit_wider (x : Rat) : ∃ d : Nat, 2 ≤ d ∧ f.unit x = 2 ^ d * wide.unit x := by
  have order : wide.lastDigit (Int.log 2 |x|) + 2 ≤ f.lastDigit (Int.log 2 |x|) := by
    unfold lastDigit
    omega
  obtain ⟨d, exponent⟩ : ∃ d : Nat,
      f.lastDigit (Int.log 2 |x|) = d + wide.lastDigit (Int.log 2 |x|) :=
    ⟨(f.lastDigit (Int.log 2 |x|) - wide.lastDigit (Int.log 2 |x|)).toNat, by omega⟩
  refine ⟨d, by omega, ?_⟩
  rw [unit, exponent, zpow_add₀ (by decide), zpow_natCast, unit]

theorem rounded_twice_small (some_digit : 0 < f.digits) (positive : 0 < x)
    (small : Int.log 2 |x| < wide.lastDigit (Int.log 2 |x|)) :
    f.rounded (wide.rounded x) = 0 ∧ f.rounded x = 0 ∧ x ≤ wide.unit x := by
  have below := (binade_of_pos positive).2
  have last : wide.lastDigit (Int.log 2 |x|) = wide.quantum := by
    unfold lastDigit at small ⊢
    omega
  have unit : wide.unit x = 2 ^ wide.quantum := by rw [Format.unit, last]
  have near : x ≤ 2 ^ wide.quantum :=
    below.le.trans (zpow_le_zpow_right₀ (by norm_num) (by omega))
  have half : (2 : Rat) ^ wide.quantum ≤ 2 ^ f.quantum / 2 := by
    have double : (2 : Rat) ^ (wide.quantum + 1) ≤ 2 ^ f.quantum :=
      zpow_le_zpow_right₀ (by norm_num) (by omega)
    rw [zpow_add_one₀ (by decide)] at double
    linarith
  rw [rounded_eq_zero some_digit, rounded_eq_zero some_digit, abs_of_pos positive, unit]
  refine ⟨?_, near.trans half, near⟩
  rw [rounded_pos (by omega) positive, unit, abs_of_nonneg]
  · exact (toMultiple_le_zpow le_rfl near).trans half
  · have least := le_multiple (n := 0) (by positivity : (0 : Rat) < 2 ^ wide.quantum)
      (by simpa using positive.le)
    simpa using least

/-- A number that is rounded to a wider format first. -/
theorem rounded_twice (some_digit : 0 < f.digits) (x : Rat) :
    f.rounded (wide.rounded x) = f.rounded x ↔ ¬ BesideTie (wide.unit x) (f.unit x) |x| := by
  have coarse : ∀ y, 4 * wide.unit y ≤ f.unit y := by
    intro y
    obtain ⟨d, more, wider⟩ := unit_wider digits quanta y
    have four : (2 : Rat) ^ 2 ≤ 2 ^ d := pow_le_pow_right₀ (by norm_num) more
    rw [wider]
    exact mul_le_mul_of_nonneg_right (by linarith) (wide.unit_pos y).le
  induction x using of_pos with
  | zero =>
    rw [rounded_zero, abs_zero]
    exact iff_of_true rfl (not_besideTie (wide.unit_pos 0) (coarse 0) le_rfl (wide.unit_pos 0).le)
  | pos x positive =>
    have fine := wide.unit_pos x
    by_cases digit : wide.lastDigit (Int.log 2 |x|) ≤ Int.log 2 |x|
    · obtain ⟨least, below⟩ := binade_of_pos positive
      have low := zpow_le_toMultiple digit least
      have high := toMultiple_le_zpow (digit.trans (Int.le_add_one le_rfl)) below.le
      rw [← rounded_inside (by omega) least below] at low high
      obtain ⟨d, more, wider⟩ := unit_wider digits quanta x
      rw [abs_of_pos positive, wider, ← multiple_twice more fine x, ← wider,
        rounded_binade some_digit low high, rounded_pos some_digit positive,
        rounded_pos (f := wide) (by omega) positive]
      exact (mul_left_inj' (f.unit_pos x).ne').trans Int.cast_inj
    · obtain ⟨twice, once, near⟩ :=
        rounded_twice_small digits quanta some_digit positive (not_le.mp digit)
      rw [twice, once, abs_of_pos positive]
      exact iff_of_true rfl (not_besideTie fine (coarse x) positive.le near)
  | neg x same => rwa [rounded_neg, rounded_neg, rounded_neg, neg_inj, unit_neg, unit_neg, abs_neg]

/-- The same where numbers can be too large. -/
theorem nearest_twice (some_digit : 0 < f.digits) (order : f.least < f.limit)
    (fits : ¬ f.Overflows x) :
    f.nearest (wide.rounded x) = f.nearest x ↔ ¬ BesideTie (wide.unit x) (f.unit x) |x| := by
  rw [← rounded_twice digits quanta some_digit x]
  have once : f.nearest x = .finite (f.rounded x) := if_neg fits
  rw [once]
  constructor
  · intro same
    unfold nearest at same
    split at same
    · contradiction
    · exact Value.finite.inj same
  · intro same
    have fits' : ¬ f.Overflows (wide.rounded x) := by
      rwa [overflows_iff some_digit order, same, ← overflows_iff some_digit order]
    rw [nearest, if_neg fits', same]

end Wider

end Format

end FloatingPoint

import HttpAudioServer.Dumps

/-! What `json::parse` makes of an integer of any size. The test for an overflow compares the wrapped
value with the one before it, and misses some of the values that have wrapped around. -/
namespace HttpAudioServer.Json

open Lexer Grammar

/-- At no figure the wrapped value is below the one before it. -/
def Undetected (n : Nat) : Prop :=
  ∀ k, n / 10 ^ (k + 1) % 18446744073709551616 ≤ n / 10 ^ k % 18446744073709551616

section Figures

theorem undetected_of_lt {n : Nat} (fits : n < 18446744073709551616) : Undetected n := by
  intro k
  have shorter : n / 10 ^ (k + 1) ≤ n / 10 ^ k := by
    rw [Nat.pow_succ, ← Nat.div_div_eq_div_mul]
    exact Nat.div_le_self _ _
  have small : n / 10 ^ k < 18446744073709551616 := Nat.lt_of_le_of_lt (Nat.div_le_self _ _) fits
  rw [Nat.mod_eq_of_lt small, Nat.mod_eq_of_lt (Nat.lt_of_le_of_lt shorter small)]
  exact shorter

theorem undetected_iff {n : Nat} : Undetected n ↔
    Undetected (n / 10) ∧ n / 10 % 18446744073709551616 ≤ n % 18446744073709551616 := by
  have shift : ∀ k, n / 10 ^ (k + 1) = n / 10 / 10 ^ k := by
    intro k
    rw [Nat.pow_succ, Nat.mul_comm, Nat.div_div_eq_div_mul]
  constructor
  · intro undetected
    refine ⟨fun k => ?_, by simpa using undetected 0⟩
    rw [← shift, ← shift]
    exact undetected (k + 1)
  · rintro ⟨before, last⟩ k
    cases k with
    | zero => simpa using last
    | succ k =>
      rw [shift, shift]
      exact before k

theorem countFigures_digit (value : Nat) {d : Nat} (digit : d < 10) (rest : Bytes) :
    countFigures 18446744073709551615 value .unsigned ((48 + UInt8.ofNat d) :: rest) =
      if (value * 10 + d) % 18446744073709551616 < value then
        countFigures 18446744073709551615 value .float rest
      else countFigures 18446744073709551615 ((value * 10 + d) % 18446744073709551616)
        .unsigned rest := by
  have byte : ∀ d < 10, (48 + UInt8.ofNat d).toNat - 48 = d ∧
      ¬ ((48 + UInt8.ofNat d) < 48 ∨ 57 < (48 + UInt8.ofNat d)) := by decide
  obtain ⟨figure, inside⟩ := byte d digit
  have bound : ¬ 18446744073709551615 < (value * 10 + d) % 18446744073709551616 := by omega
  rw [countFigures, if_neg inside, if_pos (by simp)]
  simp only [figure, bound, or_false]

theorem countFigures_float (value : Nat) {d : Nat} (digit : d < 10) (rest : Bytes) :
    countFigures 18446744073709551615 value .float ((48 + UInt8.ofNat d) :: rest) =
      countFigures 18446744073709551615 value .float rest := by
  have inside : ∀ d < 10, ¬ ((48 + UInt8.ofNat d) < 48 ∨ 57 < (48 + UInt8.ofNat d)) := by decide
  rw [countFigures, if_neg (inside d digit), if_neg (by simp)]

/-- The value is the number up to a multiple of 2^64, unless a wrap has been noticed. -/
theorem countFigures_wraps (n : Nat) :
    (Undetected n → ∀ rest, countFigures 18446744073709551615 0 .unsigned (digitsText n ++ rest) =
      countFigures 18446744073709551615 (n % 18446744073709551616) .unsigned rest) ∧
    (¬ Undetected n → ∃ value, ∀ rest,
      countFigures 18446744073709551615 0 .unsigned (digitsText n ++ rest) =
        countFigures 18446744073709551615 value .float rest) := by
  induction n using Nat.strong_induction_on with
  | _ n ih =>
    by_cases one : n < 10
    · have undetected : Undetected n := undetected_of_lt (by omega)
      refine ⟨fun _ rest => ?_, fun detected => absurd undetected detected⟩
      rw [digitsText_one one, List.singleton_append, countFigures_digit 0 one, if_neg (by omega)]
      simp
    · obtain ⟨whole, wrapped⟩ := ih (n / 10) (by omega)
      have digit : n % 10 < 10 := Nat.mod_lt _ (by decide)
      have next : (n / 10 % 18446744073709551616 * 10 + n % 10) % 18446744073709551616 =
          n % 18446744073709551616 := by omega
      have text : ∀ rest, digitsText n ++ rest =
          digitsText (n / 10) ++ (48 + UInt8.ofNat (n % 10)) :: rest := by
        intro rest
        rw [digitsText_succ (by omega), List.append_assoc]
        rfl
      constructor
      · intro undetected rest
        obtain ⟨before, last⟩ := undetected_iff.mp undetected
        rw [text, whole before, countFigures_digit _ digit, next, if_neg (Nat.not_lt.mpr last)]
      · intro detected
        by_cases before : Undetected (n / 10)
        · have last : n % 18446744073709551616 < n / 10 % 18446744073709551616 :=
            Nat.lt_of_not_le fun last => detected (undetected_iff.mpr ⟨before, last⟩)
          refine ⟨n / 10 % 18446744073709551616, fun rest => ?_⟩
          rw [text, whole before, countFigures_digit _ digit, next, if_pos last]
        · obtain ⟨value, floats⟩ := wrapped before
          refine ⟨value, fun rest => ?_⟩
          rw [text, floats, countFigures_float value digit]

theorem figures_digitsText (n : Nat) :
    figures (digitsText n) = countFigures 18446744073709551615 0 .unsigned (digitsText n) := by
  have plain := Parser.figures_plus (integer_digitsText n) []
  rwa [List.append_nil] at plain

end Figures

/-- An integer without a sign is read as it is below 2^64. Above, it becomes a float if a wrap is
noticed; otherwise it is read as another integer, as 3 * 10^19 is. -/
theorem parse_integer (strtod : Bytes → Double) (n : Nat) :
    (n < 18446744073709551616 → Undetected n) ∧
    (Undetected n → Parser.parse strtod (digitsText n) =
      some (.ok (.integer (n % 18446744073709551616 : Nat)))) ∧
    (¬ Undetected n → Parser.parse strtod (digitsText n) =
      some (.ok (.float (strtod (digitsText n))))) ∧
    Undetected 30000000000000000000 := by
  have parsed : Parser.parse strtod (digitsText n) =
      some (.ok (Lexer.getNumber strtod (digitsText n))) :=
    Parser.parse_value (.number (.plus (unsigned_digitsText n)) rfl)
  obtain ⟨whole, wrapped⟩ := countFigures_wraps n
  refine ⟨undetected_of_lt, fun undetected => ?_, fun detected => ?_, ?_⟩
  · have counted := whole undetected []
    rw [List.append_nil] at counted
    rw [parsed, Lexer.getNumber, figures_digitsText, counted]
    rfl
  · obtain ⟨value, floats⟩ := wrapped detected
    have counted := floats []
    rw [List.append_nil] at counted
    rw [parsed, Lexer.getNumber, figures_digitsText, counted]
    rfl
  · exact undetected_iff.mpr ⟨undetected_of_lt (by decide), by decide⟩

end HttpAudioServer.Json

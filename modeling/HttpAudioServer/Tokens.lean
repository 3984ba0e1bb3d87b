import HttpAudioServer.Grammar
import Mathlib.Data.List.TakeWhile

/-! What the scanner takes for a token, and what a token stands for, by the grammar. -/
namespace HttpAudioServer.Lexer

open Grammar

section Blanks

theorem skipBlanks_spec (s : Bytes) : ∃ b, s = b ++ skipBlanks s ∧ Blanks b := by
  fun_induction skipBlanks s with
  | case1 => exact ⟨[], rfl, .nil⟩
  | case2 ch s blank ih =>
    obtain ⟨b, same, blanks⟩ := ih
    exact ⟨ch :: b, congrArg (ch :: ·) same, .space blank blanks⟩
  | case3 s _ ih =>
    obtain ⟨b, same, blanks⟩ := ih
    exact ⟨0xEF :: 0xBB :: 0xBF :: b, congrArg (fun s => 0xEF :: 0xBB :: 0xBF :: s) same,
      .mark blanks⟩
  | case4 ch s => exact ⟨[], rfl, .nil⟩

theorem skipBlanks_blank {ch : UInt8} (blank : isBlank ch = true) (s : Bytes) :
    skipBlanks (ch :: s) = skipBlanks s := by
  rw [skipBlanks.eq_def]
  simp only [blank, if_true]

theorem skipBlanks_append {b : Bytes} (blanks : Blanks b) (s : Bytes) :
    skipBlanks (b ++ s) = skipBlanks s := by
  induction blanks with
  | nil => rfl
  | space blank rest ih => exact (skipBlanks_blank blank _).trans ih
  | mark rest ih => exact ih

theorem skipBlanks_solid {ch : UInt8} (solid : isBlank ch = false) (mark : ch ≠ 0xEF) (s : Bytes) :
    skipBlanks (ch :: s) = ch :: s := by
  rw [skipBlanks.eq_def]
  simp only [solid, Bool.false_eq_true, if_false]
  split
  · exact absurd rfl mark
  · rfl

theorem scan_append {b : Bytes} (blanks : Blanks b) (s : Bytes) : scan (b ++ s) = scan s := by
  rw [scan, scan, skipBlanks_append blanks]

theorem scan_solid {ch : UInt8} (solid : isBlank ch = false) (mark : ch ≠ 0xEF) (s : Bytes) :
    scan (ch :: s) = scanToken (ch :: s) := by
  rw [scan, skipBlanks_solid solid mark]

theorem blanks_append {b b' : Bytes} (first : Blanks b) (second : Blanks b') :
    Blanks (b ++ b') := by
  induction first with
  | nil => exact second
  | space blank _ ih => exact .space blank ih
  | mark _ ih => exact .mark ih

end Blanks

section Strings

/-- What the scanner lets stand in a string. -/
inductive Raw : Bytes → Prop where
  | nil : Raw []
  | plain {ch : UInt8} {s : Bytes} (unescaped : isUnescaped ch = true) (rest : Raw s) :
      Raw (ch :: s)
  | escape {e : UInt8} {s : Bytes} (escapes : e ∈ str "\"\\/bfnrt") (rest : Raw s) :
      Raw (92 :: e :: s)
  | unicode {a b c d : UInt8} {s : Bytes} (hex : ∃ n, Hex a b c d n) (rest : Raw s) :
      Raw (92 :: 117 :: a :: b :: c :: d :: s)

theorem hex_iff {a b c d : UInt8} :
    ([a, b, c, d].all fun ch => (hexDigit ch).isSome) = true ↔ ∃ n, Hex a b c d n := by
  simp only [List.all_cons, List.all_nil, Bool.and_true, Bool.and_eq_true, Option.isSome_iff_exists]
  constructor
  · rintro ⟨⟨w, first⟩, ⟨x, second⟩, ⟨y, third⟩, z, fourth⟩
    exact ⟨_, w, x, y, z, first, second, third, fourth, rfl⟩
  · rintro ⟨_, w, x, y, z, first, second, third, fourth, _⟩
    exact ⟨⟨w, first⟩, ⟨x, second⟩, ⟨y, third⟩, z, fourth⟩

theorem hexValue_of_hex {a b c d : UInt8} {n : Nat} (hex : Hex a b c d n) :
    hexValue [a, b, c, d] = n := by
  obtain ⟨w, x, y, z, first, second, third, fourth, rfl⟩ := hex
  simp [hexValue, digitsValue, first, second, third, fourth]

theorem scanString_plain {ch : UInt8} (unescaped : isUnescaped ch = true) (s : Bytes) :
    scanString (ch :: s) = (scanString s).map (· + 1) := by
  rw [scanString.eq_def]
  simp only [unescaped, if_true]

theorem scanString_quote (s : Bytes) : scanString (34 :: s) = some 1 := by
  rw [scanString.eq_def]
  rfl

theorem scanString_escape {e : UInt8} (escapes : e ∈ str "\"\\/bfnrt") (s : Bytes) :
    scanString (92 :: e :: s) = (scanString s).map (· + 2) := by
  rw [scanString.eq_def]
  simp only [show isUnescaped 92 = false by decide, Bool.false_eq_true, if_false, escapes, if_true,
    show ¬ (92 : UInt8) = 34 by decide]

theorem scanString_unicode {a b c d : UInt8} {n : Nat} (hex : Hex a b c d n) (s : Bytes) :
    scanString (92 :: 117 :: a :: b :: c :: d :: s) = (scanString s).map (· + 6) := by
  rw [scanString.eq_def]
  simp only [show isUnescaped 92 = false by decide, Bool.false_eq_true, if_false, if_true,
    show ¬ (92 : UInt8) = 34 by decide, show ¬ (117 : UInt8) ∈ str "\"\\/bfnrt" by decide,
    hex_iff.mpr ⟨n, hex⟩]

theorem scanString_raw {body : Bytes} (raw : Raw body) (s : Bytes) :
    scanString (body ++ 34 :: s) = some (body.length + 1) := by
  induction raw with
  | nil => exact scanString_quote s
  | plain unescaped _ ih => rw [List.cons_append, scanString_plain unescaped, ih]; rfl
  | escape escapes _ ih =>
    rw [List.cons_append, List.cons_append, scanString_escape escapes, ih]
    rfl
  | unicode hex _ ih =>
    obtain ⟨n, hex⟩ := hex
    simp only [List.cons_append]
    rw [scanString_unicode hex, ih]
    rfl

theorem raw_of_scanString {s : Bytes} {n : Nat} (scanned : scanString s = some n) :
    ∃ body rest, s = body ++ 34 :: rest ∧ n = body.length + 1 ∧ Raw body := by
  fun_induction scanString s generalizing n with
  | case1 => cases scanned
  | case2 ch s unescaped ih =>
    obtain ⟨m, found, rfl⟩ := Option.map_eq_some_iff.mp scanned
    obtain ⟨body, rest, rfl, rfl, raw⟩ := ih found
    exact ⟨ch :: body, rest, rfl, rfl, .plain unescaped raw⟩
  | case3 => exact ⟨[], _, rfl, (Option.some.inj scanned).symm, .nil⟩
  | case4 => cases scanned
  | case5 =>
    rename_i ih
    obtain ⟨m, found, rfl⟩ := Option.map_eq_some_iff.mp scanned
    obtain ⟨body, rest, rfl, rfl, raw⟩ := ih found
    exact ⟨92 :: _ :: body, rest, rfl, rfl, .escape (by assumption) raw⟩
  | case6 =>
    rename_i ih
    obtain ⟨m, found, rfl⟩ := Option.map_eq_some_iff.mp scanned
    obtain ⟨body, rest, rfl, rfl, raw⟩ := ih found
    exact ⟨92 :: 117 :: _ :: _ :: _ :: _ :: body, rest, rfl, rfl,
      .unicode (hex_iff.mp (by assumption)) raw⟩
  | case7 => cases scanned
  | case8 => cases scanned
  | case9 => cases scanned
  | case10 => cases scanned

theorem or_add {x : Nat} :
    (x < 64 → 0x80 ||| x = 0x80 + x) ∧ (x < 32 → 0xC0 ||| x = 0xC0 + x) ∧
      (x < 16 → 0xE0 ||| x = 0xE0 + x) ∧ (x < 8 → 0xF0 ||| x = 0xF0 + x) := by
  have all : ∀ x < 64, 0x80 ||| x = 0x80 + x ∧ (x < 32 → 0xC0 ||| x = 0xC0 + x) ∧
      (x < 16 → 0xE0 ||| x = 0xE0 + x) ∧ (x < 8 → 0xF0 ||| x = 0xF0 + x) := by decide
  refine ⟨fun h => (all x h).1, fun h => (all x (by omega)).2.1 h,
    fun h => (all x (by omega)).2.2.1 h, fun h => (all x (by omega)).2.2.2 h⟩

theorem toUnicode_of_point {m n k : Nat} (bound : k ≤ 0x10FFFF)
    (point : (if 0xD800 ≤ m ∧ m ≤ 0xDBFF then
      if 0xDC00 ≤ n ∧ n ≤ 0xDFFF then .ok (m <<< 10 + n - 0x35FDC00)
      else .error ⟨"missing or wrong low surrogate"⟩
      else .ok m : Except Exn Nat) = .ok k) :
    toUnicode m n = .ok (utf8 k) := by
  have and5 : k >>> 6 &&& 0x1F = k / 64 % 32 := by
    rw [Nat.shiftRight_eq_div_pow]
    exact Nat.and_two_pow_sub_one_eq_mod _ 5
  have and4 : k >>> 12 &&& 0x0F = k / 4096 % 16 := by
    rw [Nat.shiftRight_eq_div_pow]
    exact Nat.and_two_pow_sub_one_eq_mod _ 4
  have and3 : k >>> 18 &&& 0x07 = k / 262144 % 8 := by
    rw [Nat.shiftRight_eq_div_pow]
    exact Nat.and_two_pow_sub_one_eq_mod _ 3
  have and6 : ∀ i, k >>> i &&& 0x3F = k / 2 ^ i % 64 := by
    intro i
    rw [Nat.shiftRight_eq_div_pow]
    exact Nat.and_two_pow_sub_one_eq_mod _ 6
  have and0 : k &&& 0x3F = k % 64 := Nat.and_two_pow_sub_one_eq_mod _ 6
  unfold toUnicode utf8
  rw [point]
  simp only [Except.bind, and5, and4, and3, and6, and0, Nat.reducePow]
  rw [or_add.1 (by omega), or_add.1 (by omega), or_add.1 (by omega), or_add.2.1 (by omega),
    or_add.2.2.1 (by omega), or_add.2.2.2 (by omega)]
  by_cases one : k < 0x80
  · rw [if_pos one, if_pos one]
  by_cases two : k < 0x800
  · rw [if_neg one, if_neg one, if_pos (by omega), if_pos two,
      Nat.mod_eq_of_lt (show k / 64 < 32 by omega)]
  by_cases three : k < 0x10000
  · rw [if_neg one, if_neg one, if_neg (by omega), if_neg two, if_pos (by omega), if_pos three,
      Nat.mod_eq_of_lt (show k / 4096 < 16 by omega)]
  · rw [if_neg one, if_neg one, if_neg (by omega), if_neg two, if_neg (by omega), if_neg three,
      if_pos bound, Nat.mod_eq_of_lt (show k / 262144 < 8 by omega)]

theorem toUnicode_single {n : Nat} (bound : n < 0x10000) (single : ¬ HighSurrogate n) :
    toUnicode n 0 = .ok (utf8 n) :=
  toUnicode_of_point (by omega) (if_neg single)

theorem toUnicode_pair {m n : Nat} (high : HighSurrogate m) (low : LowSurrogate n) :
    toUnicode m n = .ok (utf8 (0x10000 + (m - 0xD800) * 0x400 + (n - 0xDC00))) := by
  obtain ⟨m_ge, m_le⟩ := high
  obtain ⟨n_ge, n_le⟩ := low
  have sum : m <<< 10 + n - 0x35FDC00 = 0x10000 + (m - 0xD800) * 0x400 + (n - 0xDC00) := by
    rw [Nat.shiftLeft_eq]
    omega
  refine toUnicode_of_point (by omega) ?_
  rw [if_pos ⟨m_ge, m_le⟩, if_pos ⟨n_ge, n_le⟩, sum]

theorem toUnicode_wrong {m n : Nat} (high : HighSurrogate m) (wrong : ¬ LowSurrogate n)
    {v : Bytes} : toUnicode m n ≠ .ok v := by
  unfold toUnicode
  rw [if_pos (show 0xD800 ≤ m ∧ m ≤ 0xDBFF from high),
    if_neg (show ¬ (0xDC00 ≤ n ∧ n ≤ 0xDFFF) from wrong)]
  simp [Except.bind]

theorem hexDigit_lt {ch : UInt8} {w : Nat} (digit : hexDigit ch = some w) : w < 16 := by
  unfold hexDigit at digit
  split at digit
  · rename_i range
    have low := UInt8.le_iff_toNat_le.mp range.1
    have high := UInt8.le_iff_toNat_le.mp range.2
    have value : (ch - 48).toNat = w := Option.some.inj digit
    rw [UInt8.toNat_sub_of_le _ _ range.1] at value
    simp at low high value
    omega
  · split at digit
    · rename_i range
      have low := UInt8.le_iff_toNat_le.mp range.1
      have high := UInt8.le_iff_toNat_le.mp range.2
      have value : (tolower ch - 87).toNat = w := Option.some.inj digit
      have le : 87 ≤ tolower ch := UInt8.le_trans (by decide) range.1
      rw [UInt8.toNat_sub_of_le _ _ le] at value
      simp at low high value
      omega
    · cases digit

theorem hex_lt {a b c d : UInt8} {n : Nat} (hex : Hex a b c d n) : n < 0x10000 := by
  obtain ⟨w, x, y, z, first, second, third, fourth, rfl⟩ := hex
  have := hexDigit_lt first
  have := hexDigit_lt second
  have := hexDigit_lt third
  have := hexDigit_lt fourth
  omega

theorem raw_of_chars {s v : Bytes} (chars : Chars s v) : Raw s := by
  induction chars with
  | nil => exact .nil
  | plain unescaped _ ih => exact .plain unescaped ih
  | escape escapes _ ih =>
    refine .escape ?_ ih
    unfold unescape at escapes
    repeat' split at escapes
    all_goals simp_all [str, String.utf8EncodeChar]
    tauto
  | unicode hex _ _ ih => exact .unicode ⟨_, hex⟩ ih
  | pair hex _ hex' _ _ ih => exact .unicode ⟨_, hex⟩ (.unicode ⟨_, hex'⟩ ih)

theorem isHighSurrogate_iff {n : Nat} : isHighSurrogate n = true ↔ HighSurrogate n := by
  simp [isHighSurrogate, HighSurrogate]

theorem stringValue_plain {ch : UInt8} (unescaped : isUnescaped ch = true) (s : Bytes) :
    stringValue (ch :: s) = (stringValue s).map (ch :: ·) := by
  rw [stringValue.eq_def]
  have other : ch ≠ 92 := by
    rintro rfl
    cases unescaped
  simp only [other, if_false]

theorem stringValue_escape {e : UInt8} (other : e ≠ 117) (s : Bytes) :
    stringValue (92 :: e :: s) = (stringValue s).map ((unescape e).toList ++ ·) := by
  rw [stringValue.eq_def]
  simp only [if_true, other, if_false]

theorem stringValue_unicode {a b c d : UInt8} {n : Nat} (hex : Hex a b c d n)
    (single : ¬ HighSurrogate n) (s : Bytes) :
    stringValue (92 :: 117 :: a :: b :: c :: d :: s) = (stringValue s).map (utf8 n ++ ·) := by
  have low : isHighSurrogate n = false := by
    rw [← Bool.not_eq_true, isHighSurrogate_iff]
    exact single
  rw [stringValue.eq_def]
  simp only [if_true, hexValue_of_hex hex, low, Bool.false_eq_true, if_false,
    toUnicode_single (hex_lt hex) single, Except.bind]

theorem stringValue_pair {a b c d a' b' c' d' : UInt8} {m n : Nat} (hex : Hex a b c d m)
    (high : HighSurrogate m) (hex' : Hex a' b' c' d' n) (s : Bytes) :
    stringValue (92 :: 117 :: a :: b :: c :: d :: 92 :: 117 :: a' :: b' :: c' :: d' :: s) =
      (toUnicode m n).bind fun result => (stringValue s).map (result ++ ·) := by
  rw [stringValue.eq_def]
  simp only [if_true, hexValue_of_hex hex, hexValue_of_hex hex', isHighSurrogate_iff.mpr high]

theorem stringValue_alone {a b c d : UInt8} {m : Nat} (hex : Hex a b c d m)
    (high : HighSurrogate m) {s : Bytes} (alone : ∀ t, s ≠ 92 :: 117 :: t) :
    stringValue (92 :: 117 :: a :: b :: c :: d :: s) = .error ⟨"missing low surrogate"⟩ := by
  rw [stringValue.eq_def]
  simp only [if_true, hexValue_of_hex hex, isHighSurrogate_iff.mpr high]
  split
  · exact absurd rfl (alone _)
  · rfl

theorem stringValue_chars {s v : Bytes} (chars : Chars s v) : stringValue s = .ok v := by
  induction chars with
  | nil => rfl
  | plain unescaped _ ih => rw [stringValue_plain unescaped, ih]; rfl
  | @escape e _ _ _ escapes _ ih =>
    have other : e ≠ 117 := by
      rintro rfl
      cases escapes
    rw [stringValue_escape other, ih, escapes]
    rfl
  | unicode hex single _ ih => rw [stringValue_unicode hex single, ih]; rfl
  | pair hex high hex' low _ ih =>
    rw [stringValue_pair hex high hex', toUnicode_pair high low, ih]
    rfl

theorem map_ok {α β : Type} {r : Except Exn α} {f : α → β} {b : β} (mapped : r.map f = .ok b) :
    ∃ a, r = .ok a ∧ f a = b := by
  cases r with
  | error e => cases mapped
  | ok a => exact ⟨a, rfl, Except.ok.inj mapped⟩

/-- The induction is on the length: a pair of surrogates is two escapes for the scanner. -/
theorem chars_of_stringValue {s v : Bytes} (raw : Raw s) (valued : stringValue s = .ok v) :
    Chars s v := by
  induction n : s.length using Nat.strong_induction_on generalizing s v with
  | _ n ih =>
    subst n
    cases raw with
    | nil =>
      cases valued
      exact .nil
    | plain unescaped raw =>
      rw [stringValue_plain unescaped] at valued
      obtain ⟨v, found, rfl⟩ := map_ok valued
      exact .plain unescaped (ih _ (by simp) raw found rfl)
    | @escape e _ escapes raw =>
      have known : ∃ ch, unescape e = some ch := by
        have all : ((str "\"\\/bfnrt").all fun e => (unescape e).isSome) = true := by decide
        exact Option.isSome_iff_exists.mp (List.all_eq_true.mp all e escapes)
      obtain ⟨ch, unescaped⟩ := known
      have other : e ≠ 117 := by
        rintro rfl
        cases unescaped
      rw [stringValue_escape other, unescaped] at valued
      obtain ⟨v, found, rfl⟩ := map_ok valued
      exact .escape unescaped (ih _ (by simp only [List.length_cons]; omega) raw found rfl)
    | @unicode a b c d s hex raw =>
      obtain ⟨m, hex⟩ := hex
      by_cases high : HighSurrogate m
      · cases raw with
        | nil => cases (stringValue_alone hex high (by simp)).symm.trans valued
        | @plain ch _ unescaped _ =>
          have other : ch ≠ 92 := by
            rintro rfl
            cases unescaped
          cases (stringValue_alone hex high (by simp [other])).symm.trans valued
        | @escape e _ escapes _ =>
          have other : e ≠ 117 := by
            rintro rfl
            exact absurd escapes (by decide)
          cases (stringValue_alone hex high (by simp [other])).symm.trans valued
        | @unicode a' b' c' d' s hex' raw =>
          obtain ⟨n, hex'⟩ := hex'
          rw [stringValue_pair hex high hex'] at valued
          by_cases low : LowSurrogate n
          · rw [toUnicode_pair high low] at valued
            obtain ⟨v, found, rfl⟩ := map_ok valued
            have chars := ih _ (by simp only [List.length_cons]; omega) raw found rfl
            exact .pair hex high hex' low chars
          · cases point : toUnicode m n with
            | ok v => exact absurd point (toUnicode_wrong high low)
            | error e =>
              rw [point] at valued
              cases valued
      · rw [stringValue_unicode hex high] at valued
        obtain ⟨v, found, rfl⟩ := map_ok valued
        exact .unicode hex high (ih _ (by simp only [List.length_cons]; omega) raw found rfl)

end Strings

section Numbers

/-- A number that ends here is at its end. -/
def Stops (s : Bytes) : Prop :=
  ∀ ch t, s = ch :: t → isDigit ch = false ∧ ch ≠ 46 ∧ ch ≠ 69 ∧ ch ≠ 101

theorem take_takeWhile (s : Bytes) :
    s.take (s.takeWhile isDigit).length = s.takeWhile isDigit :=
  (List.prefix_iff_eq_take.mp (List.takeWhile_prefix isDigit)).symm

theorem takeWhile_digits {digits s : Bytes} (all : ∀ ch ∈ digits, isDigit ch = true)
    (stops : ∀ ch t, s = ch :: t → isDigit ch = false) :
    (digits ++ s).takeWhile isDigit = digits := by
  rw [List.takeWhile_append_of_pos all]
  cases s with
  | nil => simp
  | cons ch t => simp [stops ch t rfl]

theorem digits_takeWhile {s : Bytes} (some_digit : s.takeWhile isDigit ≠ []) :
    Digits (s.takeWhile isDigit) :=
  ⟨some_digit, fun _ member => List.mem_takeWhile_imp member⟩

theorem integer_of_scan {s : Bytes} {n : Nat} (scanned : scanInteger s = some n) :
    Integer (s.take n) := by
  cases s with
  | nil => cases scanned
  | cons ch s =>
    simp only [scanInteger] at scanned
    split at scanned
    · rename_i zero
      subst zero
      cases scanned
      exact .zero
    · rename_i nonzero
      split at scanned
      · rename_i digit
        cases scanned
        rw [Nat.add_comm, List.take_succ_cons, take_takeWhile]
        exact .digits digit nonzero fun _ member => List.mem_takeWhile_imp member
      · cases scanned

theorem fraction_of_scan (s : Bytes) : Fraction (s.take (scanPoint s)) := by
  unfold scanPoint
  split
  · rename_i s
    split
    · exact .none
    · rename_i some_digit
      rw [Nat.add_comm, List.take_succ_cons, take_takeWhile]
      exact .point (digits_takeWhile some_digit)
  · exact .none

theorem signed_of_scan (s : Bytes) :
    s.take (signLength s) = [] ∨ s.take (signLength s) = [43] ∨ s.take (signLength s) = [45] := by
  unfold signLength
  split
  · exact .inr (.inl rfl)
  · exact .inr (.inr rfl)
  · exact .inl rfl

theorem power_of_scan (s : Bytes) : Power (s.take (scanPower s)) := by
  cases s with
  | nil => exact .none
  | cons ch s =>
    unfold scanPower
    simp only
    split
    · rename_i found
      rw [Nat.add_assoc, Nat.add_comm, List.take_succ_cons, List.take_add, take_takeWhile]
      exact .letter found.1 (signed_of_scan s) (digits_takeWhile found.2)
    · exact .none

theorem unsigned_of_scan {s : Bytes} {n : Nat} (scanned : scanUnsigned s = some n) :
    Unsigned (s.take n) := by
  obtain ⟨i, integer, rfl⟩ := Option.map_eq_some_iff.mp scanned
  simp only
  rw [List.take_add, List.take_add, List.append_assoc]
  exact .parts (integer_of_scan integer) (fraction_of_scan _) (power_of_scan _)

theorem scanInteger_append {i s : Bytes} (integer : Integer i)
    (stops : ∀ ch t, s = ch :: t → isDigit ch = false) : scanInteger (i ++ s) = some i.length := by
  cases integer with
  | zero => rfl
  | digits first nonzero others =>
    rw [List.cons_append, scanInteger, if_neg nonzero, if_pos first,
      takeWhile_digits others stops, Nat.add_comm]
    rfl

theorem scanPoint_append {f s : Bytes} (fraction : Fraction f)
    (stops : ∀ ch t, s = ch :: t → isDigit ch = false ∧ ch ≠ 46) :
    scanPoint (f ++ s) = f.length := by
  cases fraction with
  | none =>
    rw [List.nil_append]
    unfold scanPoint
    split
    · exact absurd rfl (stops _ _ rfl).2
    · rfl
  | point digits =>
    rw [List.cons_append, scanPoint, takeWhile_digits digits.2 fun ch t same => (stops ch t same).1,
      if_neg digits.1, Nat.add_comm]
    rfl

theorem signLength_append {sign digits : Bytes} (s : Bytes)
    (signed : sign = [] ∨ sign = [43] ∨ sign = [45]) (some_digits : Digits digits) :
    signLength (sign ++ (digits ++ s)) = sign.length := by
  obtain ⟨nonempty, all⟩ := some_digits
  obtain rfl | rfl | rfl := signed
  · cases digits with
    | nil => exact absurd rfl nonempty
    | cons d digits =>
      have digit := all d List.mem_cons_self
      unfold signLength
      split
      · rename_i same
        cases same
        cases digit
      · rename_i same
        cases same
        cases digit
      · rfl
  · rfl
  · rfl

theorem scanPower_append {p s : Bytes} (power : Power p) (stops : Stops s) :
    scanPower (p ++ s) = p.length := by
  cases power with
  | none =>
    cases s with
    | nil => rfl
    | cons ch s =>
      obtain ⟨_, _, upper, lower⟩ := stops ch s rfl
      simp [scanPower, upper, lower]
  | @letter e sign digits letter signed some_digits =>
    rw [List.cons_append, List.append_assoc, scanPower]
    simp only [signLength_append s signed some_digits, List.drop_left,
      takeWhile_digits some_digits.2 fun ch t same => (stops ch t same).1]
    rw [if_pos ⟨letter, some_digits.1⟩]
    simp only [List.length_cons, List.length_append]
    omega

theorem scanUnsigned_append {u s : Bytes} (unsigned : Unsigned u) (stops : Stops s) :
    scanUnsigned (u ++ s) = some u.length := by
  obtain ⟨integer, fraction, power⟩ := unsigned
  rename_i i f p
  have after_fraction : ∀ ch t, p ++ s = ch :: t → isDigit ch = false ∧ ch ≠ 46 := by
    intro ch t same
    cases power with
    | none => exact ⟨(stops ch t same).1, (stops ch t same).2.1⟩
    | letter letter =>
      cases same
      obtain rfl | rfl := letter <;> decide
  have after_integer : ∀ ch t, f ++ (p ++ s) = ch :: t → isDigit ch = false := by
    intro ch t same
    cases fraction with
    | none => exact (after_fraction ch t same).1
    | point =>
      cases same
      decide
  rw [scanUnsigned, List.append_assoc, List.append_assoc, scanInteger_append integer after_integer]
  simp only [Option.map_some, List.drop_left, scanPoint_append fraction after_fraction]
  rw [← List.append_assoc i, ← List.length_append, List.drop_left, scanPower_append power stops,
    ← List.length_append, List.append_assoc]

end Numbers

section Tokens

/-- What the text of a token can be. -/
inductive Lexeme : TokenType → Bytes → Prop where
  | endOfInput : Lexeme .endOfInput [0]
  | string {body : Bytes} (raw : Raw body) : Lexeme .valueString (34 :: (body ++ [34]))
  | number {s : Bytes} (number : Number s) : Lexeme .valueNumber s
  | literalNull : Lexeme .literalNull (str "null")
  | literalTrue : Lexeme .literalTrue (str "true")
  | literalFalse : Lexeme .literalFalse (str "false")
  | valueSeparator : Lexeme .valueSeparator [44]
  | nameSeparator : Lexeme .nameSeparator [58]
  | beginArray : Lexeme .beginArray [91]
  | endArray : Lexeme .endArray [93]
  | beginObject : Lexeme .beginObject [123]
  | endObject : Lexeme .endObject [125]
  | parseError {ch : UInt8} (other : ch ≠ 0) : Lexeme .parseError [ch]

def Lexed (s : Bytes) (token : Token) : Prop :=
  s = token.text ++ token.cursor ∧ Lexeme token.type token.text

theorem lexed_took {type : TokenType} {s : Bytes} {n : Nat} (lexeme : Lexeme type (s.take n)) :
    Lexed s (took type s n) :=
  ⟨(List.take_append_drop n s).symm, lexeme⟩

theorem lexed_orError {type : TokenType} {ch : UInt8} {s : Bytes} (other : ch ≠ 0)
    {length : Option Nat} (lexeme : ∀ n, length = some n → Lexeme type ((ch :: s).take n)) :
    Lexed (ch :: s) (orError type (ch :: s) length) := by
  cases length with
  | none => exact lexed_took (.parseError other)
  | some n => exact lexed_took (lexeme n rfl)

theorem lexed_literal {type : TokenType} {text : Bytes} {ch : UInt8} {s : Bytes} (other : ch ≠ 0)
    (lexeme : Lexeme type text) : Lexed (ch :: s) (literal type text (ch :: s)) := by
  refine lexed_orError other fun n found => ?_
  split at found
  · rename_i starts
    cases found
    rwa [← List.prefix_iff_eq_take.mp starts]
  · cases found

theorem lexeme_string {s : Bytes} {n : Nat} (scanned : (scanString s).map (· + 1) = some n) :
    Lexeme .valueString ((34 :: s).take n) := by
  obtain ⟨m, found, rfl⟩ := Option.map_eq_some_iff.mp scanned
  obtain ⟨body, rest, rfl, rfl, raw⟩ := raw_of_scanString found
  rw [List.take_succ_cons, show body ++ 34 :: rest = (body ++ [34]) ++ rest by simp,
    List.take_left' (by simp)]
  exact .string raw

theorem lexed_of_scanToken {s : Bytes} {token : Token} (scanned : scanToken s = some token) :
    Lexed s token := by
  cases s with
  | nil => cases scanned
  | cons ch s =>
    rw [scanToken.eq_def] at scanned
    replace scanned := Option.some.inj scanned
    subst scanned
    by_cases zero : ch = 0
    · subst zero
      exact lexed_took .endOfInput
    rw [if_neg zero]
    by_cases quote : ch = 34
    · subst quote
      rw [if_pos rfl]
      exact lexed_orError zero fun _ => lexeme_string
    rw [if_neg quote]
    by_cases comma : ch = 44
    · subst comma
      rw [if_pos rfl]
      exact lexed_took .valueSeparator
    rw [if_neg comma]
    by_cases minus : ch = 45
    · subst minus
      rw [if_pos rfl]
      refine lexed_orError zero fun n found => ?_
      obtain ⟨m, scanned, rfl⟩ := Option.map_eq_some_iff.mp found
      exact .number (.minus (unsigned_of_scan scanned))
    rw [if_neg minus]
    by_cases digit : isDigit ch = true
    · rw [if_pos digit]
      exact lexed_orError zero fun _ found => .number (.plus (unsigned_of_scan found))
    rw [if_neg digit]
    by_cases colon : ch = 58
    · subst colon
      rw [if_pos rfl]
      exact lexed_took .nameSeparator
    rw [if_neg colon]
    by_cases opening : ch = 91
    · subst opening
      rw [if_pos rfl]
      exact lexed_took .beginArray
    rw [if_neg opening]
    by_cases closing : ch = 93
    · subst closing
      rw [if_pos rfl]
      exact lexed_took .endArray
    rw [if_neg closing]
    by_cases f : ch = 102
    · rw [if_pos f]
      exact lexed_literal zero .literalFalse
    rw [if_neg f]
    by_cases n : ch = 110
    · rw [if_pos n]
      exact lexed_literal zero .literalNull
    rw [if_neg n]
    by_cases t : ch = 116
    · rw [if_pos t]
      exact lexed_literal zero .literalTrue
    rw [if_neg t]
    by_cases opening' : ch = 123
    · subst opening'
      rw [if_pos rfl]
      exact lexed_took .beginObject
    rw [if_neg opening']
    by_cases closing' : ch = 125
    · subst closing'
      rw [if_pos rfl]
      exact lexed_took .endObject
    rw [if_neg closing']
    exact lexed_took (.parseError zero)

theorem scanToken_some {s : Bytes} (nonempty : s ≠ []) : ∃ token, scanToken s = some token := by
  cases s with
  | nil => exact absurd rfl nonempty
  | cons ch s => exact ⟨_, rfl⟩

theorem took_append (type : TokenType) (text s : Bytes) :
    took type (text ++ s) text.length = ⟨type, text, s⟩ := by
  rw [took, List.take_left, List.drop_left]

theorem scan_literals (s : Bytes) :
    scan (str "null" ++ s) = some ⟨.literalNull, str "null", s⟩ ∧
    scan (str "true" ++ s) = some ⟨.literalTrue, str "true", s⟩ ∧
    scan (str "false" ++ s) = some ⟨.literalFalse, str "false", s⟩ := by
  have whole : ∀ (type : TokenType) (text : Bytes),
      literal type text (text ++ s) = ⟨type, text, s⟩ := by
    intro type text
    rw [literal, if_pos (List.prefix_append text s), orError, took_append]
  refine ⟨?_, ?_, ?_⟩
  · exact congrArg some (whole .literalNull (str "null"))
  · exact congrArg some (whole .literalTrue (str "true"))
  · exact congrArg some (whole .literalFalse (str "false"))

theorem scan_string {body : Bytes} (raw : Raw body) (s : Bytes) :
    scan (34 :: (body ++ 34 :: s)) = some ⟨.valueString, 34 :: (body ++ [34]), s⟩ := by
  rw [scan_solid (by decide) (by decide), scanToken, if_neg (by decide), if_pos rfl,
    scanString_raw raw]
  have text : 34 :: (body ++ 34 :: s) = (34 :: (body ++ [34])) ++ s := by simp
  have length : body.length + 1 + 1 = (34 :: (body ++ [34])).length := by simp
  rw [text, Option.map_some, length, orError, took_append]

theorem scan_unsigned {u : Bytes} (unsigned : Unsigned u) {s : Bytes} (stops : Stops s) :
    scan (u ++ s) = some ⟨.valueNumber, u, s⟩ := by
  have scanned := scanUnsigned_append unsigned stops
  have first : ∃ ch t, u = ch :: t ∧ isDigit ch = true := by
    obtain ⟨integer, _, _⟩ := unsigned
    cases integer with
    | zero => exact ⟨48, _, rfl, by decide⟩
    | digits first => exact ⟨_, _, rfl, first⟩
  obtain ⟨ch, t, rfl, digit⟩ := first
  have range : 48 ≤ ch.toNat ∧ ch.toNat ≤ 57 := by
    simpa [isDigit, UInt8.le_iff_toNat_le] using digit
  have other : ∀ n : UInt8, (n.toNat < 48 ∨ 57 < n.toNat) → ch ≠ n := by
    rintro n outside rfl
    omega
  have solid : isBlank ch = false := by
    simp [isBlank, other 9 (by decide), other 10 (by decide), other 13 (by decide),
      other 32 (by decide)]
  rw [List.cons_append, scan_solid solid (other _ (by decide)), scanToken,
    if_neg (other _ (by decide)), if_neg (other _ (by decide)), if_neg (other _ (by decide)),
    if_neg (other _ (by decide)), if_pos digit, ← List.cons_append, scanned, orError, took_append]

theorem scan_number {u : Bytes} (number : Number u) {s : Bytes} (stops : Stops s) :
    scan (u ++ s) = some ⟨.valueNumber, u, s⟩ := by
  cases number with
  | plus unsigned => exact scan_unsigned unsigned stops
  | minus unsigned =>
    rw [List.cons_append, scan_solid (by decide) (by decide), scanToken, if_neg (by decide),
      if_neg (by decide), if_neg (by decide), if_pos rfl, scanUnsigned_append unsigned stops]
    simp [orError, took]

end Tokens

end HttpAudioServer.Lexer

import HttpAudioServer.Parser

/-! `json::parse` accepts every document of the grammar, with its value. -/
namespace HttpAudioServer.Parser

open Throwing Lexer Grammar

variable {strtod : Bytes → Double} {fuel : Nat}

section Steps

variable {token t u w : Token} {j : Json}

theorem returns_getToken (scanned : scan token.cursor = some t) : getToken.Returns token () t :=
  Procedure.returns_ofOption scanned

theorem returns_expect {type : TokenType} (typed : token.type = type) :
    (expect type).Returns token () token := by
  refine Procedure.returns_get_bind ?_
  rw [if_neg (not_not.mpr typed.symm)]
  exact Procedure.returns_pure

theorem returns_unexpect {type : TokenType} (other : token.type ≠ type) :
    (unexpect type).Returns token () token := by
  refine Procedure.returns_get_bind ?_
  rw [if_neg fun same => other same.symm]
  exact Procedure.returns_pure

theorem skips_comma {text cursor : Bytes} (scanned : scan cursor = some t) :
    skipSeparator.Returns ⟨.valueSeparator, text, cursor⟩ () t := by
  refine Procedure.returns_get_bind ?_
  rw [if_pos rfl]
  exact returns_getToken scanned

theorem skips_nothing (other : token.type ≠ .valueSeparator) :
    skipSeparator.Returns token () token := by
  refine Procedure.returns_get_bind ?_
  rw [if_neg other]
  exact Procedure.returns_pure

theorem returns_leaf (scanned : scan token.cursor = some t) :
    (do getToken; return j : Parser Json).Returns token j t :=
  .bind (returns_getToken scanned) Procedure.returns_pure

theorem returns_items {items all : List Json} (skipped : skipSeparator.Returns token () t)
    (value : (parseInternal strtod fuel).Returns t j u)
    (later : (if u.type = .valueSeparator then parseItems strtod fuel (items ++ [j])
      else pure (items ++ [j]) : Parser (List Json)).Returns u all w) :
    (parseItems strtod (fuel + 1) items).Returns token all w := by
  rw [parseItems]
  exact .bind skipped (.bind value (Procedure.returns_get_bind later))

theorem getString_chars {k key : Bytes} (chars : Chars k key) :
    Lexer.getString (34 :: (k ++ [34])) = .ok key := by
  have valued := stringValue_chars chars
  simpa [Lexer.getString] using valued

theorem returns_members {fields all : List (Bytes × Json)} {k key s : Bytes}
    (skipped : skipSeparator.Returns token () ⟨.valueString, 34 :: (k ++ [34]), s⟩)
    (chars : Chars k key) {r : Bytes} (named : scan s = some ⟨.nameSeparator, [58], r⟩)
    (valued : scan r = some t) (value : (parseInternal strtod fuel).Returns t j u)
    (later : (if u.type = .valueSeparator then
        parseMembers strtod fuel (Json.insertField key j fields)
      else pure (Json.insertField key j fields) : Parser (List (Bytes × Json))).Returns u all w) :
    (parseMembers strtod (fuel + 1) fields).Returns token all w := by
  rw [parseMembers]
  refine .bind skipped ?_
  refine .bind (returns_expect rfl) ?_
  refine Procedure.returns_get_bind ?_
  refine .bind (Procedure.returns_ofExcept (getString_chars chars)) ?_
  refine .bind (returns_getToken named) ?_
  refine .bind (returns_expect rfl) ?_
  refine .bind (returns_getToken valued) ?_
  refine .bind value ?_
  exact Procedure.returns_get_bind later

end Steps

section Following

theorem stops_cons {ch : UInt8} {s : Bytes} (other : isDigit ch = false ∧ ch ≠ 46 ∧ ch ≠ 69 ∧
    ch ≠ 101) : Stops (ch :: s) := by
  rintro c t same
  cases same
  exact other

theorem stops_blanks {b s : Bytes} (blanks : Blanks b) (stops : Stops s) : Stops (b ++ s) := by
  cases blanks with
  | nil => exact stops
  | @space ch _ blank rest =>
    have which : ch = 9 ∨ ch = 10 ∨ ch = 13 ∨ ch = 32 := by simpa [isBlank, or_assoc] using blank
    obtain rfl | rfl | rfl | rfl := which <;> exact stops_cons (by decide)
  | mark rest => exact stops_cons (by decide)

end Following

/-- With fuel for its length a text is read, whatever comes after it: a value, the elements of an
array and the members of an object, from their first token and from the comma before them. -/
structure Accepts (strtod : Bytes → Double) (fuel : Nat) : Prop where
  value : ∀ {s : Bytes} {j : Json}, Value (Counted strtod) s j → ∀ {rest : Bytes} {t : Token}, Stops rest →
    scan rest = some t → 2 * s.length ≤ fuel → ∃ token, scan (s ++ rest) = some token ∧
      token.type ≠ .valueSeparator ∧ token.type ≠ .endArray ∧
      (parseInternal strtod fuel).Returns token j t
  items : ∀ {s : Bytes} {js : List Json}, Items (Counted strtod) s js → ∀ (items : List Json) (rest : Bytes),
    2 * s.length + 1 ≤ fuel → ∃ token, scan (s ++ 93 :: rest) = some token ∧
      token.type ≠ .valueSeparator ∧ token.type ≠ .endArray ∧
      ∀ first, skipSeparator.Returns first () token →
        (parseItems strtod fuel items).Returns first (items ++ js) ⟨.endArray, [93], rest⟩
  members : ∀ {s : Bytes} {ms : List (Bytes × Json)}, Members (Counted strtod) s ms →
    ∀ (fields : List (Bytes × Json)) (rest : Bytes), 2 * s.length + 1 ≤ fuel →
    ∃ token, scan (s ++ 125 :: rest) = some token ∧ token.type = .valueString ∧
      ∀ first, skipSeparator.Returns first () token →
        (parseMembers strtod fuel fields).Returns first
          (ms.foldl (fun o field => Json.insertField field.1 field.2 o) fields)
          ⟨.endObject, [125], rest⟩

namespace Accepts

theorem value_succ (accepts : Accepts strtod fuel) {s : Bytes} {j : Json}
    (value : Value (Counted strtod) s j) {rest : Bytes} {t : Token} (stops : Stops rest)
    (scanned : scan rest = some t) (enough : 2 * s.length ≤ fuel + 1) :
    ∃ token, scan (s ++ rest) = some token ∧ token.type ≠ .valueSeparator ∧
      token.type ≠ .endArray ∧ (parseInternal strtod (fuel + 1)).Returns token j t := by
  have leaf : ∀ {type : TokenType} {text : Bytes} {j : Json},
      (do getToken; return j : Parser Json).Returns ⟨type, text, rest⟩ j t :=
    returns_leaf scanned
  cases value with
  | null =>
    refine ⟨_, (scan_literals rest).1, by simp, by simp, ?_⟩
    rw [parseInternal]
    exact Procedure.returns_get_bind leaf
  | literalTrue =>
    refine ⟨_, (scan_literals rest).2.1, by simp, by simp, ?_⟩
    rw [parseInternal]
    exact Procedure.returns_get_bind leaf
  | literalFalse =>
    refine ⟨_, (scan_literals rest).2.2, by simp, by simp, ?_⟩
    rw [parseInternal]
    exact Procedure.returns_get_bind leaf
  | number number stands =>
    subst stands
    refine ⟨_, scan_number number stops, by simp, by simp, ?_⟩
    rw [parseInternal]
    exact Procedure.returns_get_bind leaf
  | @string s v chars =>
    have text : 34 :: (s ++ [34]) ++ rest = 34 :: (s ++ 34 :: rest) := by simp
    refine ⟨_, text ▸ scan_string (raw_of_chars chars) rest, by simp, by simp, ?_⟩
    rw [parseInternal]
    refine Procedure.returns_get_bind ?_
    exact .bind (Procedure.returns_ofExcept (getString_chars chars)) leaf
  | @emptyArray b blanks =>
    have closed : scan (b ++ 93 :: rest) = some ⟨.endArray, [93], rest⟩ := by
      rw [scan_append blanks]
      rfl
    have text : 91 :: (b ++ [93]) ++ rest = 91 :: (b ++ 93 :: rest) := by simp
    rw [text]
    refine ⟨⟨.beginArray, [91], b ++ 93 :: rest⟩, rfl, by simp, by simp, ?_⟩
    rw [parseInternal]
    refine Procedure.returns_get_bind ?_
    refine .bind (returns_getToken closed) ?_
    refine Procedure.returns_get_bind ?_
    rw [if_pos rfl]
    exact leaf
  | @emptyObject b blanks =>
    have closed : scan (b ++ 125 :: rest) = some ⟨.endObject, [125], rest⟩ := by
      rw [scan_append blanks]
      rfl
    have text : 123 :: (b ++ [125]) ++ rest = 123 :: (b ++ 125 :: rest) := by simp
    rw [text]
    refine ⟨⟨.beginObject, [123], b ++ 125 :: rest⟩, rfl, by simp, by simp, ?_⟩
    rw [parseInternal]
    refine Procedure.returns_get_bind ?_
    refine .bind (returns_getToken closed) ?_
    refine Procedure.returns_get_bind ?_
    rw [if_pos rfl]
    exact leaf
  | @array s js elements =>
    simp only [List.length_cons, List.length_append, List.length_nil] at enough
    obtain ⟨token, first, comma, closing, read⟩ := accepts.items elements [] rest (by omega)
    have text : 91 :: (s ++ [93]) ++ rest = 91 :: (s ++ 93 :: rest) := by simp
    rw [text]
    refine ⟨⟨.beginArray, [91], s ++ 93 :: rest⟩, rfl, by simp, by simp, ?_⟩
    rw [parseInternal]
    refine Procedure.returns_get_bind ?_
    refine .bind (returns_getToken first) ?_
    refine Procedure.returns_get_bind ?_
    rw [if_neg closing]
    refine .bind (returns_unexpect comma) ?_
    refine .bind (read token (skips_nothing comma)) ?_
    exact .bind (returns_expect rfl) leaf
  | @object s ms members =>
    simp only [List.length_cons, List.length_append, List.length_nil] at enough
    obtain ⟨token, first, typed, read⟩ := accepts.members members [] rest (by omega)
    have text : 123 :: (s ++ [125]) ++ rest = 123 :: (s ++ 125 :: rest) := by simp
    rw [text]
    refine ⟨⟨.beginObject, [123], s ++ 125 :: rest⟩, rfl, by simp, by simp, ?_⟩
    rw [parseInternal]
    refine Procedure.returns_get_bind ?_
    refine .bind (returns_getToken first) ?_
    refine Procedure.returns_get_bind ?_
    rw [if_neg (by simp [typed])]
    refine .bind (returns_unexpect (by simp [typed])) ?_
    refine .bind (read token (skips_nothing (by simp [typed]))) ?_
    exact .bind (returns_expect rfl) leaf

theorem items_succ (accepts : Accepts strtod fuel) {s : Bytes} {js : List Json}
    (elements : Items (Counted strtod) s js) (items : List Json) (rest : Bytes)
    (enough : 2 * s.length + 1 ≤ fuel + 1) :
    ∃ token, scan (s ++ 93 :: rest) = some token ∧
      token.type ≠ .valueSeparator ∧ token.type ≠ .endArray ∧
      ∀ first, skipSeparator.Returns first () token →
        (parseItems strtod (fuel + 1) items).Returns first (items ++ js)
          ⟨.endArray, [93], rest⟩ := by
  cases elements with
  | @last b s b' j before value after =>
    simp only [List.length_append] at enough
    have closed : scan (b' ++ 93 :: rest) = some ⟨.endArray, [93], rest⟩ := by
      rw [scan_append after]
      rfl
    have stops : Stops (b' ++ 93 :: rest) := stops_blanks after (stops_cons (by decide))
    obtain ⟨token, scanned, comma, closing, read⟩ :=
      accepts.value value stops closed (by omega)
    refine ⟨token, ?_, comma, closing, fun first skipped => ?_⟩
    · rw [List.append_assoc, List.append_assoc, scan_append before, scanned]
    · refine returns_items skipped read ?_
      rw [if_neg (by simp)]
      exact Procedure.returns_pure
  | @cons b s b' t j js before value after others =>
    simp only [List.length_append, List.length_cons] at enough
    have next : scan (b' ++ 44 :: (t ++ 93 :: rest)) =
        some ⟨.valueSeparator, [44], t ++ 93 :: rest⟩ := by
      rw [scan_append after]
      rfl
    have stops : Stops (b' ++ 44 :: (t ++ 93 :: rest)) :=
      stops_blanks after (stops_cons (by decide))
    obtain ⟨token, scanned, comma, closing, read⟩ :=
      accepts.value value stops next (by omega)
    obtain ⟨second, scanned', _, _, read'⟩ := accepts.items others (items ++ [j]) rest (by omega)
    refine ⟨token, ?_, comma, closing, fun first skipped => ?_⟩
    · simp only [List.append_assoc, List.cons_append]
      rw [scan_append before, scanned]
    · refine returns_items skipped read ?_
      rw [if_pos rfl, show items ++ j :: js = items ++ [j] ++ js by simp]
      exact read' _ (skips_comma scanned')

theorem members_succ (accepts : Accepts strtod fuel) {s : Bytes} {ms : List (Bytes × Json)}
    (members : Members (Counted strtod) s ms) (fields : List (Bytes × Json)) (rest : Bytes)
    (enough : 2 * s.length + 1 ≤ fuel + 1) :
    ∃ token, scan (s ++ 125 :: rest) = some token ∧ token.type = .valueString ∧
      ∀ first, skipSeparator.Returns first () token →
        (parseMembers strtod (fuel + 1) fields).Returns first
          (ms.foldl (fun o field => Json.insertField field.1 field.2 o) fields)
          ⟨.endObject, [125], rest⟩ := by
  cases members with
  | @last b k b₁ b₂ s b₃ key j before chars between between' value after =>
    simp only [List.length_append, List.length_cons] at enough
    have closed : scan (b₃ ++ 125 :: rest) = some ⟨.endObject, [125], rest⟩ := by
      rw [scan_append after]
      rfl
    have stops : Stops (b₃ ++ 125 :: rest) := stops_blanks after (stops_cons (by decide))
    obtain ⟨token, scanned, _, _, read⟩ := accepts.value value stops closed (by omega)
    refine ⟨⟨.valueString, 34 :: (k ++ [34]), b₁ ++ 58 :: (b₂ ++ (s ++ (b₃ ++ 125 :: rest)))⟩, ?_,
      rfl, fun first skipped => ?_⟩
    · simp only [List.append_assoc, List.cons_append]
      rw [scan_append before, scan_string (raw_of_chars chars)]
    · refine returns_members skipped chars (r := b₂ ++ (s ++ (b₃ ++ 125 :: rest))) ?_ ?_ read ?_
      · rw [scan_append between]
        rfl
      · rw [scan_append between', scanned]
      · rw [if_neg (by simp)]
        exact Procedure.returns_pure
  | @cons b k b₁ b₂ s b₃ t key j ms before chars between between' value after others =>
    simp only [List.length_append, List.length_cons] at enough
    have next : scan (b₃ ++ 44 :: (t ++ 125 :: rest)) =
        some ⟨.valueSeparator, [44], t ++ 125 :: rest⟩ := by
      rw [scan_append after]
      rfl
    have stops : Stops (b₃ ++ 44 :: (t ++ 125 :: rest)) :=
      stops_blanks after (stops_cons (by decide))
    obtain ⟨token, scanned, _, _, read⟩ := accepts.value value stops next (by omega)
    obtain ⟨second, scanned', _, read'⟩ :=
      accepts.members others (Json.insertField key j fields) rest (by omega)
    refine ⟨⟨.valueString, 34 :: (k ++ [34]),
      b₁ ++ 58 :: (b₂ ++ (s ++ (b₃ ++ 44 :: (t ++ 125 :: rest))))⟩, ?_, rfl,
      fun first skipped => ?_⟩
    · simp only [List.append_assoc, List.cons_append]
      rw [scan_append before, scan_string (raw_of_chars chars)]
    · refine returns_members skipped chars (r := b₂ ++ (s ++ (b₃ ++ 44 :: (t ++ 125 :: rest))))
        ?_ ?_ read ?_
      · rw [scan_append between]
        rfl
      · rw [scan_append between', scanned]
      · rw [if_pos rfl]
        exact read' _ (skips_comma scanned')

end Accepts

theorem value_nonempty {s : Bytes} {j : Json} (value : Value (Counted strtod) s j) : 0 < s.length := by
  cases value with
  | number number _ => exact lexeme_nonempty (.number number)
  | null => decide
  | literalTrue => decide
  | literalFalse => decide
  | _ => simp

/-- The induction is on the fuel, with the derivation taken apart in each step. -/
theorem accepts (strtod : Bytes → Double) (fuel : Nat) : Accepts strtod fuel := by
  induction fuel with
  | zero =>
    refine ⟨fun value _ _ _ _ enough => ?_, fun _ _ _ enough => ?_, fun _ _ _ enough => ?_⟩
    · have nonempty := value_nonempty value
      omega
    · omega
    · omega
  | succ fuel ih => exact ⟨ih.value_succ, ih.items_succ, ih.members_succ⟩

section Numbers

/-- What has been counted of the number `n`: itself, unless it is too large. -/
def Figured (max : Nat) (type : NumberType) (n value : Nat) (counted : NumberType) : Prop :=
  counted = type ∧ value ≤ max ∧ (n ≤ max → value = n) ∨ counted = .float ∧ max < n

theorem figured_digit {max : Nat} {type : NumberType} (range : max < 18446744073709551616)
    (whole : type ≠ .float) {n value : Nat} {counted : NumberType}
    (figured : Figured max type n value counted) {ch : UInt8} (digit : isDigit ch = true)
    (rest : Bytes) :
    ∃ value' counted', countFigures max value counted (ch :: rest) =
      countFigures max value' counted' rest ∧
      Figured max type (n * 10 + (ch.toNat - 48)) value' counted' := by
  have inside : ¬ (ch < 48 ∨ 57 < ch) := by
    simpa [isDigit, not_or] using digit
  rw [countFigures, if_neg inside]
  obtain ⟨rfl, bound, same⟩ | ⟨rfl, large⟩ := figured
  · rw [if_pos whole]
    simp only
    by_cases fits : n * 10 + (ch.toNat - 48) ≤ max
    · have exact := same (by omega)
      subst exact
      rw [if_neg (by omega)]
      exact ⟨_, _, rfl, .inl ⟨rfl, by omega, fun _ => by omega⟩⟩
    · split
      · exact ⟨_, _, rfl, .inr ⟨rfl, by omega⟩⟩
      · exact ⟨_, _, rfl, .inl ⟨rfl, by omega, fun fits' => absurd fits' fits⟩⟩
  · rw [if_neg (by simp)]
    exact ⟨_, _, rfl, .inr ⟨rfl, by omega⟩⟩

theorem figured_digits {max : Nat} {type : NumberType} (range : max < 18446744073709551616)
    (whole : type ≠ .float) {digits : Bytes} (all : ∀ ch ∈ digits, isDigit ch = true)
    (rest : Bytes) :
    ∃ value counted, countFigures max 0 type (digits ++ rest) =
      countFigures max value counted rest ∧
      Figured max type (digitsNumber digits) value counted := by
  have steps : ∀ (n value : Nat) (counted : NumberType), Figured max type n value counted →
      ∃ value' counted', countFigures max value counted (digits ++ rest) =
        countFigures max value' counted' rest ∧
        Figured max type (digits.foldl (fun n ch => n * 10 + (ch.toNat - 48)) n) value'
          counted' := by
    induction digits with
    | nil => exact fun n value counted figured => ⟨value, counted, rfl, figured⟩
    | cons ch digits ih =>
      intro n value counted figured
      obtain ⟨digit, later⟩ := List.forall_mem_cons.mp all
      obtain ⟨value₁, counted₁, first, figured₁⟩ :=
        figured_digit range whole figured digit (digits ++ rest)
      obtain ⟨value₂, counted₂, others, figured₂⟩ := ih later _ value₁ counted₁ figured₁
      exact ⟨value₂, counted₂, first.trans others, figured₂⟩
  exact steps 0 0 type (.inl ⟨rfl, Nat.zero_le _, fun _ => rfl⟩)

theorem countFigures_float (max value : Nat) (s : Bytes) :
    (countFigures max value .float s).2 = .float := by
  induction s with
  | nil => rfl
  | cons ch s ih =>
    rw [countFigures]
    split
    · split
      · exact ih
      · rfl
    · exact ih

theorem countFigures_parts {f p : Bytes} (fraction : Fraction f) (power : Power p)
    (some_part : f ++ p ≠ []) (max value : Nat) (type : NumberType) :
    (countFigures max value type (f ++ p)).2 = .float := by
  cases fraction with
  | point => exact countFigures_float max value _
  | none =>
    cases power with
    | none => exact absurd rfl some_part
    | @letter e _ _ letter =>
      have stops : (e < 48 ∨ 57 < e) ∧ e ≠ 46 := by
        rcases letter with rfl | rfl <;> decide
      rw [List.nil_append, countFigures, if_pos stops.1, if_neg stops.2]

theorem digits_of_integer {i : Bytes} (integer : Integer i) : ∀ ch ∈ i, isDigit ch = true := by
  cases integer with
  | zero =>
    intro ch member
    rw [List.mem_singleton.mp member]
    rfl
  | digits first _ others => exact List.forall_mem_cons.mpr ⟨first, others⟩

theorem not_minus {i s : Bytes} (integer : Integer i) (rest : Bytes) : i ++ rest ≠ 45 :: s := by
  cases integer with
  | zero => simp
  | digits first =>
    rintro same
    cases (List.cons.inj same).1
    cases first

theorem isInteger_parts {i f p : Bytes} (integer : Integer i) (fraction : Fraction f)
    (power : Power p) : IsInteger (i ++ (f ++ p)) ↔ f ++ p = [] := by
  constructor
  · intro all
    have after := fun ch member => all ch (List.mem_append_right i member)
    cases fraction with
    | point => exact absurd (after 46 (by simp)) (by decide)
    | none =>
      cases power with
      | none => rfl
      | @letter e _ _ letter =>
        have first := after e (by simp)
        rcases letter with rfl | rfl <;> exact absurd first (by decide)
  · intro nothing ch member
    rw [nothing, List.append_nil] at member
    exact .inr (digits_of_integer integer ch member)

theorem not_integer_parts {i f p : Bytes} (integer : Integer i) (fraction : Fraction f)
    (power : Power p) (some_part : f ++ p ≠ []) :
    ¬ IsInteger (i ++ (f ++ p)) ∧ ¬ IsInteger (45 :: (i ++ (f ++ p))) := by
  have not_integer := mt (isInteger_parts integer fraction power).mp some_part
  exact ⟨not_integer, fun all => not_integer fun ch member => all ch (List.mem_cons_of_mem _ member)⟩

theorem isInteger_minus {i : Bytes} (integer : Integer i) :
    IsInteger i ∧ IsInteger (45 :: i) := by
  have all : IsInteger i := fun ch member => .inr (digits_of_integer integer ch member)
  exact ⟨all, List.forall_mem_cons.mpr ⟨.inl rfl, all⟩⟩

theorem integerNumber_plus {i : Bytes} (integer : Integer i) : integerNumber i = digitsNumber i := by
  unfold integerNumber
  split
  · rename_i digits
    exact absurd (List.append_nil _) (not_minus (s := digits) integer [])
  · rfl

theorem figures_plus {i : Bytes} (integer : Integer i) (rest : Bytes) :
    figures (i ++ rest) = countFigures 18446744073709551615 0 .unsigned (i ++ rest) := by
  unfold figures
  split
  · rename_i same
    exact absurd same (not_minus integer rest)
  · rfl

theorem getNumber_float (strtod : Bytes → Double) {s : Bytes} (float : (figures s).2 = .float) :
    Lexer.getNumber strtod s = .float (strtod s) := by
  unfold Lexer.getNumber
  split
  · rename_i same
    rw [same] at float
    contradiction
  · rename_i same
    rw [same] at float
    contradiction
  · rfl

theorem getNumber_exact (strtod : Bytes → Double) {s : Bytes} (number : Number s) :
    Lexer.getNumber strtod s = numeralValue strtod s ↔ FitsNumber s := by
  unfold numeralValue FitsNumber
  cases number with
  | plus unsigned =>
    obtain @⟨i, f, p, integer, fraction, power⟩ := unsigned
    obtain ⟨value, counted, count, figured⟩ := figured_digits
      (by decide : 18446744073709551615 < 18446744073709551616)
      (by simp : NumberType.unsigned ≠ .float) (digits_of_integer integer) (f ++ p)
    rw [← figures_plus integer] at count
    by_cases some_part : f ++ p = []
    · rw [some_part, List.append_nil] at count ⊢
      have whole := (isInteger_minus integer).1
      rw [if_pos whole, integerNumber_plus integer, Lexer.getNumber, count]
      obtain ⟨rfl, bound, same⟩ | ⟨rfl, large⟩ := figured
      · simp only [countFigures, Json.integer.injEq, whole, true_imp_iff]
        omega
      · simp only [countFigures, reduceCtorEq, whole, true_imp_iff, false_iff]
        omega
    · have other := (not_integer_parts integer fraction power some_part).1
      have float := countFigures_parts fraction power some_part 18446744073709551615 value counted
      rw [← count] at float
      rw [if_neg other, getNumber_float strtod float]
      exact iff_of_true rfl fun all => absurd all other
  | minus unsigned =>
    obtain @⟨i, f, p, integer, fraction, power⟩ := unsigned
    obtain ⟨value, counted, count, figured⟩ := figured_digits
      (by decide : 9223372036854775808 < 18446744073709551616)
      (by simp : NumberType.integer ≠ .float) (digits_of_integer integer) (f ++ p)
    by_cases some_part : f ++ p = []
    · rw [some_part, List.append_nil] at count ⊢
      have whole := (isInteger_minus integer).2
      have number : integerNumber (45 :: i) = -digitsNumber i := rfl
      rw [if_pos whole, number, Lexer.getNumber, figures, count]
      obtain ⟨rfl, bound, same⟩ | ⟨rfl, large⟩ := figured
      · simp only [countFigures, Json.integer.injEq, whole, true_imp_iff]
        omega
      · simp only [countFigures, reduceCtorEq, whole, true_imp_iff, false_iff]
        omega
    · have other := (not_integer_parts integer fraction power some_part).2
      have float := countFigures_parts fraction power some_part 9223372036854775808 value counted
      have counts : (figures (45 :: (i ++ (f ++ p)))).2 = .float := by
        rw [figures, count]
        exact float
      rw [if_neg other, getNumber_float strtod counts]
      exact iff_of_true rfl fun all => absurd all other

end Numbers

section Parse

def initial (text : Bytes) : Token := ⟨.uninitialized, [], text ++ [0]⟩

theorem parse_ok_iff {text : Bytes} {j : Json} : parse strtod text = some (.ok j) ↔
    ∃ t, (parseDocument strtod (2 * (text.length + 1))).Returns (initial text) j t := by
  unfold parse Procedure.Returns initial
  match (parseDocument strtod (2 * (text.length + 1)) ⟨.uninitialized, [], text ++ [0]⟩).run with
  | none => simp
  | some (.error e) => simp [Except.map]
  | some (.ok (j', t)) => simp [Except.map]

theorem ensures_parseDocument (text : Bytes) :
    (parseDocument strtod (2 * (text.length + 1))).Ensures (initial text) fun j _ =>
      ∃ s t, text ++ [0] = s ++ 0 :: t ∧ Document (Counted strtod) s j := by
  refine Procedure.Ensures.bind
    (ensures_next (by simp [initial]) fun b token same blanks sees => ?_)
  have whole : text ++ [0] = b ++ here token := same
  have length := congrArg List.length whole
  simp only [List.length_append, List.length_singleton] at length
  refine Procedure.Ensures.bind (((sound strtod _).value token sees (by omega)).mono ?_)
  rintro j t ⟨sees', _, s, b', split, value, blanks'⟩
  refine Procedure.Ensures.bind (ensures_expect fun ended => ?_)
  have null := (text_of_type sees'.lexeme).1 ended
  refine Procedure.ensures_pure
    ⟨b ++ (s ++ b'), t.cursor, ?_, b, s, b', rfl, blanks, value, blanks'⟩
  rw [whole, split, here, null]
  simp

theorem returns_parseDocument {text s t : Bytes} {j : Json} (split : text ++ [0] = s ++ 0 :: t)
    (document : Document (Counted strtod) s j) :
    (parseDocument strtod (2 * (text.length + 1))).Returns (initial text) j
      ⟨.endOfInput, [0], t⟩ := by
  obtain ⟨b, v, b', rfl, blanks, value, blanks'⟩ := document
  have length := congrArg List.length split
  simp only [List.length_append, List.length_cons, List.length_nil] at length
  have ended : scan (b' ++ 0 :: t) = some ⟨.endOfInput, [0], t⟩ := by
    rw [scan_append blanks']
    rfl
  have stops : Stops (b' ++ 0 :: t) := stops_blanks blanks' (stops_cons (by decide))
  obtain ⟨token, scanned, _, _, read⟩ :=
    (accepts strtod (2 * (text.length + 1))).value value stops ended (by omega)
  have first : scan (text ++ [0]) = some token := by
    rw [split, List.append_assoc, List.append_assoc, scan_append blanks, scanned]
  refine .bind (returns_getToken first) ?_
  refine .bind read ?_
  exact .bind (returns_expect rfl) Procedure.returns_pure

theorem parse_total (strtod : Bytes → Double) (text : Bytes) :
    ∃ result, parse strtod text = some result := by
  obtain ⟨e, thrown⟩ | ⟨j, t, returned, _⟩ := @ensures_parseDocument strtod text
  · exact ⟨.error e, congrArg (Option.map (Except.map Prod.fst)) thrown⟩
  · exact ⟨.ok j, parse_ok_iff.mpr ⟨t, returned⟩⟩

theorem parse_ok_document {text : Bytes} {j : Json} : parse strtod text = some (.ok j) ↔
    ∃ s t, text ++ [0] = s ++ 0 :: t ∧ Document (Counted strtod) s j := by
  constructor
  · intro parsed
    obtain ⟨t, returned⟩ := parse_ok_iff.mp parsed
    exact (ensures_parseDocument text).returned returned
  · rintro ⟨s, t, split, document⟩
    exact parse_ok_iff.mpr ⟨_, returns_parseDocument split document⟩

/-- The parser always comes to an end and stays inside of its buffer, and it accepts exactly the
texts that are a document up to a null, with the value of the document; numbers are what
`get_number` makes of them, and that is what they are exactly if they fit. -/
theorem parse_accepts (strtod : Bytes → Double) (text : Bytes) :
    (∃ result, parse strtod text = some result) ∧
    (∀ j, parse strtod text = some (.ok j) ↔
      ∃ s t, text ++ [0] = s ++ 0 :: t ∧ Document (Counted strtod) s j) ∧
    (∀ s, Number s → (Lexer.getNumber strtod s = numeralValue strtod s ↔ FitsNumber s)) ∧
    ∀ s t j, text ++ [0] = s ++ 0 :: t → Document (Exact strtod) s j →
      parse strtod text = some (.ok j) := by
  refine ⟨parse_total strtod text, fun _ => parse_ok_document,
    fun _ => getNumber_exact strtod, fun s t j split document => ?_⟩
  refine parse_ok_document.mpr ⟨s, t, split, document.mono ?_⟩
  rintro s j number ⟨stands, fits⟩
  exact ((getNumber_exact strtod number).mpr fits).trans stands

/-- What `json::parse` returns or throws. -/
def result (strtod : Bytes → Double) (text : Bytes) : Except Exn Json :=
  (parse strtod text).get (Option.isSome_iff_exists.mpr (parse_total strtod text))

theorem result_ok_iff {text : Bytes} {j : Json} : result strtod text = .ok j ↔
    ∃ s t, text ++ [0] = s ++ 0 :: t ∧ Document (Counted strtod) s j := by
  rw [← parse_ok_document, result, Option.eq_some_iff_get_eq]
  exact ⟨fun same => ⟨_, same⟩, fun ⟨_, same⟩ => same⟩

theorem document_value {s : Bytes} {j : Json} (value : Value (Counted strtod) s j) : Document (Counted strtod) s j :=
  ⟨[], s, [], by simp, .nil, value, .nil⟩

theorem parse_value {text : Bytes} {j : Json} (value : Value (Counted strtod) text j) :
    parse strtod text = some (.ok j) :=
  parse_ok_document.mpr ⟨text, [], rfl, document_value value⟩

theorem result_of_document {text : Bytes} {j : Json} (document : Document (Counted strtod) text j) :
    result strtod text = .ok j :=
  result_ok_iff.mpr ⟨text, [], rfl, document⟩

end Parse

end HttpAudioServer.Parser

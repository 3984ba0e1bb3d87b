import HttpAudioServer.Documents
import HttpAudioServer.JsonText

/-! `json::parse` reads back what `dump` and `operator<<` write. A double comes back as the number
that its text is read as, which is an integer where the text has neither a point nor an exponent. -/
namespace HttpAudioServer.Json

open Lexer Grammar

section Values

variable (floatText : Rat → Bytes) (strtod : Bytes → Double)

mutual

/-- Integers of 64 bits, and the fields of objects in the order of their keys. -/
def Stored : Json → Prop
  | .integer i => -9223372036854775808 ≤ i ∧ i ≤ 18446744073709551615
  | .array items => StoredItems items
  | .object fields => fields.Pairwise (fun a b => a.1 < b.1) ∧ StoredFields fields
  | .null | .boolean _ | .float _ | .string _ => True

def StoredItems : List Json → Prop
  | [] => True
  | item :: items => Stored item ∧ StoredItems items

def StoredFields : List (Bytes × Json) → Prop
  | [] => True
  | (_, value) :: fields => Stored value ∧ StoredFields fields

end

mutual

def reread : Json → Json
  | .null => .null
  | .boolean b => .boolean b
  | .integer i => .integer i
  | .float x => Lexer.getNumber strtod (numberText floatText x)
  | .string s => .string s
  | .array items => .array (rereadItems items)
  | .object fields => .object (rereadFields fields)

def rereadItems : List Json → List Json
  | [] => []
  | item :: items => reread item :: rereadItems items

def rereadFields : List (Bytes × Json) → List (Bytes × Json)
  | [] => []
  | (key, value) :: fields => (key, reread value) :: rereadFields fields

end

end Values

section Strings

theorem utf8_byte (c : UInt8) (low : c ≤ 31) : utf8 c.toNat = [c] := by
  have bound := UInt8.le_iff_toNat_le.mp low
  have small : c.toNat < 0x80 := Nat.lt_of_le_of_lt bound (by decide)
  rw [utf8, if_pos small]
  simp

theorem hex_control (c : UInt8) (low : c ≤ 31) :
    Hex 48 48 (hexify (c >>> 4)) (hexify (c &&& 15)) c.toNat := by
  have all : ∀ n < 32, hexDigit (hexify (UInt8.ofNat n >>> 4)) = some (n / 16) ∧
      hexDigit (hexify (UInt8.ofNat n &&& 15)) = some (n % 16) := by decide
  have bound : c.toNat < 32 := Nat.lt_succ_of_le (UInt8.le_iff_toNat_le.mp low)
  have this := all c.toNat bound
  rw [UInt8.ofNat_toNat] at this
  exact ⟨0, 0, _, _, rfl, rfl, this.1, this.2, by omega⟩

theorem chars_escapeByte (c : UInt8) {s v : Bytes} (rest : Chars s v) :
    Chars (escapeByte c ++ s) (c :: v) := by
  unfold escapeByte
  -- Seven bytes have an escape of two characters
  iterate 7
    split
    · subst_vars
      exact .escape rfl rest
  split
  · rename_i control
    have single : ¬ HighSurrogate c.toNat := by
      have bound := UInt8.toNat_lt c
      rintro ⟨high, _⟩
      omega
    have chars := Chars.unicode (hex_control c control) single rest
    rwa [utf8_byte c control] at chars
  · rename_i quote backslash _ _ _ _ _ printed
    refine .plain ?_ rest
    have low := UInt8.lt_iff_toNat_lt.mp (UInt8.not_le.mp printed)
    have printed' : 32 ≤ c := UInt8.le_iff_toNat_le.mpr low
    simp [isUnescaped, printed', quote, backslash]

theorem chars_escapeString (s : Bytes) : Chars (escapeString s) s := by
  induction s with
  | nil => exact .nil
  | cons c s ih =>
    rw [escapeString, List.flatMap_cons]
    exact chars_escapeByte c ih

end Strings

section Integers

def digitsText (n : Nat) : Bytes := (Nat.toDigits 10 n).flatMap String.utf8EncodeChar

theorem digitChar_byte {d : Nat} (digit : d < 10) :
    String.utf8EncodeChar (Nat.digitChar d) = [48 + UInt8.ofNat d] := by
  have all : ∀ d < 10, String.utf8EncodeChar (Nat.digitChar d) = [48 + UInt8.ofNat d] := by decide
  exact all d digit

theorem digitsText_succ {n : Nat} (several : 10 ≤ n) :
    digitsText n = digitsText (n / 10) ++ [48 + UInt8.ofNat (n % 10)] := by
  rw [digitsText, Nat.toDigits_of_base_le (by decide) several, List.flatMap_append,
    List.flatMap_singleton, digitChar_byte (Nat.mod_lt _ (by decide))]
  rfl

theorem digitsText_one {n : Nat} (one : n < 10) : digitsText n = [48 + UInt8.ofNat n] := by
  rw [digitsText, Nat.toDigits_of_lt_base one, List.flatMap_singleton, digitChar_byte one]

theorem isDigit_byte {d : Nat} (digit : d < 10) : isDigit (48 + UInt8.ofNat d) = true := by
  have all : ∀ d < 10, isDigit (48 + UInt8.ofNat d) = true := by decide
  exact all d digit

theorem integer_digitsText (n : Nat) : Integer (digitsText n) := by
  have positive : ∀ n, 0 < n → ∃ d s, digitsText n = d :: s ∧ isDigit d = true ∧ d ≠ 48 ∧
      ∀ ch ∈ s, isDigit ch = true := by
    intro n
    induction n using Nat.strong_induction_on with
    | _ n ih =>
      intro some_digit
      by_cases one : n < 10
      · have nonzero : ∀ n < 10, 0 < n → 48 + UInt8.ofNat n ≠ 48 := by decide
        exact ⟨_, [], digitsText_one one, isDigit_byte one, nonzero n one some_digit, by simp⟩
      · obtain ⟨d, s, text, first, other, digits⟩ := ih (n / 10) (by omega) (by omega)
        refine ⟨d, s ++ [48 + UInt8.ofNat (n % 10)], ?_, first, other, ?_⟩
        · rw [digitsText_succ (by omega), text]
          rfl
        · intro ch member
          rcases List.mem_append.mp member with member | member
          · exact digits ch member
          · rw [List.mem_singleton.mp member]
            exact isDigit_byte (Nat.mod_lt _ (by decide))
  rcases Nat.eq_zero_or_pos n with rfl | some_digit
  · exact .zero
  · obtain ⟨d, s, text, first, other, digits⟩ := positive n some_digit
    rw [text]
    exact .digits first other digits

theorem digitsNumber_digitsText (n : Nat) : digitsNumber (digitsText n) = n := by
  have byte : ∀ d < 10, (48 + UInt8.ofNat d).toNat - 48 = d := by decide
  induction n using Nat.strong_induction_on with
  | _ n ih =>
    by_cases one : n < 10
    · rw [digitsText_one one, digitsNumber, List.foldl_cons, List.foldl_nil, byte n one]
      omega
    · have before := ih (n / 10) (by omega)
      rw [digitsNumber] at before
      rw [digitsText_succ (by omega), digitsNumber, List.foldl_append, before, List.foldl_cons,
        List.foldl_nil, byte _ (Nat.mod_lt _ (by decide))]
      omega

theorem unsigned_digitsText (n : Nat) : Unsigned (digitsText n) := by
  have parts := Unsigned.parts (integer_digitsText n) .none .none
  rwa [List.append_nil, List.append_nil] at parts

theorem getNumber_plus (strtod : Bytes → Double) {n : Nat} (fits : n ≤ 18446744073709551615) :
    Lexer.getNumber strtod (digitsText n) = .integer n := by
  have number : integerNumber (digitsText n) = n := by
    rw [Parser.integerNumber_plus (integer_digitsText n), digitsNumber_digitsText]
  have value : numeralValue strtod (digitsText n) = .integer n := by
    rw [numeralValue, if_pos (Parser.isInteger_minus (integer_digitsText n)).1, number]
  have exact := Parser.getNumber_exact strtod (.plus (unsigned_digitsText n))
  rw [← value, exact, FitsNumber, number]
  omega

theorem getNumber_minus (strtod : Bytes → Double) {n : Nat} (fits : n ≤ 9223372036854775808) :
    Lexer.getNumber strtod (45 :: digitsText n) = .integer (-n) := by
  have number : integerNumber (45 :: digitsText n) = -n := by
    rw [integerNumber, digitsNumber_digitsText]
  have value : numeralValue strtod (45 :: digitsText n) = .integer (-n) := by
    rw [numeralValue, if_pos (Parser.isInteger_minus (integer_digitsText n)).2, number]
  have exact := Parser.getNumber_exact strtod (.minus (unsigned_digitsText n))
  rw [← value, exact, FitsNumber, number]
  omega

theorem value_integer (strtod : Bytes → Double) {i : Int} (stored : Stored (.integer i)) :
    Value (Counted strtod) (str (toString i)) (.integer i) := by
  obtain ⟨lower, upper⟩ := stored
  cases i with
  | ofNat n =>
    have text : str (toString (Int.ofNat n)) = digitsText n :=
      congrArg (List.flatMap String.utf8EncodeChar) Nat.toList_repr
    have fits : n ≤ 18446744073709551615 := by
      change (n : Int) ≤ 18446744073709551615 at upper
      omega
    have value := @Value.number (Counted strtod) _ _ (.plus (unsigned_digitsText n)) rfl
    rwa [getNumber_plus strtod fits, ← text] at value
  | negSucc n =>
    have text : str (toString (Int.negSucc n)) = 45 :: digitsText (n + 1) := by
      have written : (toString (Int.negSucc n)).toList = '-' :: Nat.toDigits 10 (n + 1) := by
        rw [← Nat.toList_repr]
        exact String.toList_append
      rw [str, written]
      rfl
    have fits : n + 1 ≤ 9223372036854775808 := by omega
    have value := @Value.number (Counted strtod) _ _ (.minus (unsigned_digitsText (n + 1))) rfl
    rw [getNumber_minus strtod fits, ← text] at value
    exact value

end Integers

section Objects

theorem insertField_last {key : Bytes} {value : Json} {fields : List (Bytes × Json)}
    (last : ∀ field ∈ fields, field.1 < key) :
    insertField key value fields = fields ++ [(key, value)] := by
  induction fields with
  | nil => rfl
  | cons field fields ih =>
    have before := last field List.mem_cons_self
    have other : key ≠ field.1 := by
      rintro rfl
      exact List.lt_irrefl _ before
    rw [insertField, if_neg (List.lt_asymm before), if_neg other,
      ih fun field member => last field (List.mem_cons_of_mem _ member)]
    rfl

theorem insert_sorted (fields known : List (Bytes × Json))
    (sorted : (known ++ fields).Pairwise fun a b => a.1 < b.1) :
    fields.foldl (fun o field => insertField field.1 field.2 o) known = known ++ fields := by
  induction fields generalizing known with
  | nil => simp
  | cons field fields ih =>
    have last : ∀ a ∈ known, a.1 < field.1 := by
      intro a member
      exact (List.pairwise_append.mp sorted).2.2 a member field List.mem_cons_self
    rw [List.foldl_cons, insertField_last last]
    have assoc : known ++ field :: fields = known ++ [field] ++ fields := by simp
    rw [assoc] at sorted ⊢
    exact ih _ sorted

theorem ofFields_sorted {fields : List (Bytes × Json)}
    (sorted : fields.Pairwise fun a b => a.1 < b.1) : ofFields fields = .object fields :=
  congrArg Json.object (insert_sorted fields [] sorted)

theorem keys_rereadFields (floatText : Rat → Bytes) (strtod : Bytes → Double)
    (fields : List (Bytes × Json)) :
    (rereadFields floatText strtod fields).map Prod.fst = fields.map Prod.fst := by
  induction fields with
  | nil => rfl
  | cons field fields ih => exact congrArg (field.1 :: ·) ih

theorem sorted_rereadFields {floatText : Rat → Bytes} {strtod : Bytes → Double}
    {fields : List (Bytes × Json)} (sorted : fields.Pairwise fun a b => a.1 < b.1) :
    (rereadFields floatText strtod fields).Pairwise fun a b => a.1 < b.1 := by
  have keys : ((rereadFields floatText strtod fields).map Prod.fst).Pairwise (· < ·) := by
    rw [keys_rereadFields]
    exact List.pairwise_map.mpr sorted
  exact List.pairwise_map.mp keys

end Objects

section Texts

theorem blanks_spaces (n : Nat) : Blanks (spaces n) := by
  induction n with
  | zero => exact .nil
  | succ n ih => exact .space rfl ih

theorem blanks_newline (prettyPrint : Bool) : Blanks (if prettyPrint then str "\n" else []) := by
  cases prettyPrint with
  | true => exact .space rfl .nil
  | false => exact .nil

theorem blanks_space (prettyPrint : Bool) : Blanks (if prettyPrint then str " " else []) := by
  cases prettyPrint with
  | true => exact .space rfl .nil
  | false => exact .nil

theorem comma_text (prettyPrint : Bool) : (if prettyPrint then str ",\n" else str ",") =
    44 :: (if prettyPrint then str "\n" else []) := by
  cases prettyPrint <;> rfl

theorem array_text (b v m e : Bytes) :
    str "[" ++ b ++ v ++ m ++ e ++ str "]" = 91 :: (b ++ (v ++ (m ++ e)) ++ [93]) := by
  have opening : str "[" = [91] := rfl
  have closing : str "]" = [93] := rfl
  simp [opening, closing]

theorem member_text (b k c v m e : Bytes) :
    b ++ str "\"" ++ k ++ str "\":" ++ c ++ v ++ m ++ e =
      b ++ 34 :: (k ++ 34 :: ([] ++ 58 :: (c ++ (v ++ (m ++ e))))) := by
  have quote : str "\"" = [34] := rfl
  have colon : str "\":" = [34, 58] := rfl
  simp [quote, colon]

theorem object_text (s : Bytes) : str "\x7b" ++ s ++ str "\x7d" = 123 :: (s ++ [125]) := by
  have opening : str "\x7b" = [123] := rfl
  have closing : str "\x7d" = [125] := rfl
  simp [opening, closing]

end Texts

section RoundTrip

variable {floatText : Rat → Bytes} {strtod : Bytes → Double} (prettyPrint : Bool) (indentStep : Nat)

theorem number_numberText (numbers : ∀ x, x ≠ 0 → Number (floatText x)) (x : Double) :
    Number (numberText floatText x) := by
  have digits : Digits [48] := ⟨by simp, by simp [isDigit]⟩
  have zero : Unsigned ([48] ++ ([46, 48] ++ [])) := .parts .zero (.point digits) .none
  unfold numberText
  split
  · split
    · exact .minus zero
    · exact .plus zero
  · rename_i other
    exact numbers x.value other

mutual

/-- The induction is along the value, with the elements of an array behind the first one, and the
members of an object behind the first one, as lists of their own. -/
theorem value_dumpAt (numbers : ∀ x, x ≠ 0 → Number (floatText x)) (indent : Nat) :
    ∀ j : Json, Stored j →
    Value (Counted strtod) (j.dumpAt floatText prettyPrint indentStep indent) (reread floatText strtod j)
  | .null, _ => .null
  | .boolean true, _ => .literalTrue
  | .boolean false, _ => .literalFalse
  | .integer _, stored => value_integer strtod stored
  | .float x, _ => .number (number_numberText numbers x) rfl
  | .string s, _ => .string (chars_escapeString s)
  | .array [], _ => .emptyArray .nil
  | .array (item :: items), stored => by
    obtain ⟨own, others⟩ : Stored item ∧ StoredItems items := by
      simpa only [Stored, StoredItems] using stored
    have value :=
      value_dumpAt numbers (if prettyPrint then indent + indentStep else indent) item own
    have elements := items_dumpItems numbers (if prettyPrint then indent + indentStep else indent)
      (blanks_append (blanks_newline prettyPrint)
        (blanks_spaces (if prettyPrint then indent + indentStep else indent))) value
      (blanks_append (blanks_newline prettyPrint) (blanks_spaces indent)) items others
    have array := Value.array elements
    rw [← array_text] at array
    simpa only [dumpAt, reread, rereadItems, List.append_assoc] using array
  | .object [], _ => .emptyObject .nil
  | .object ((key, value) :: fields), stored => by
    obtain ⟨sorted, own, others⟩ : ((key, value) :: fields).Pairwise (fun a b => a.1 < b.1) ∧
        Stored value ∧ StoredFields fields := by
      simpa only [Stored, StoredFields] using stored
    have valued :=
      value_dumpAt numbers (if prettyPrint then indent + indentStep else indent) value own
    have members := members_dumpFields numbers
      (if prettyPrint then indent + indentStep else indent) key
      (blanks_append (blanks_newline prettyPrint)
        (blanks_spaces (if prettyPrint then indent + indentStep else indent)))
      (blanks_space prettyPrint) valued
      (blanks_append (blanks_newline prettyPrint) (blanks_spaces indent)) fields others
    have object := Value.object members
    have same := ofFields_sorted (@sorted_rereadFields floatText strtod _ sorted)
    rw [← object_text] at object
    rw [rereadFields] at same
    rw [same] at object
    simpa only [dumpAt, reread, rereadFields, List.append_assoc] using object

theorem items_dumpItems (numbers : ∀ x, x ≠ 0 → Number (floatText x)) (indent : Nat)
    {b v e : Bytes} {first : Json} (before : Blanks b) (valued : Value (Counted strtod) v first)
    (after : Blanks e) : ∀ items : List Json, StoredItems items →
    Items (Counted strtod) (b ++ (v ++ (dumpItems floatText prettyPrint indentStep indent items ++ e)))
      (first :: rereadItems floatText strtod items)
  | [], _ => .last before valued after
  | item :: items, stored => by
    obtain ⟨own, others⟩ : Stored item ∧ StoredItems items := by
      simpa only [StoredItems] using stored
    have rest := items_dumpItems numbers indent
      (blanks_append (blanks_newline prettyPrint) (blanks_spaces indent))
      (value_dumpAt numbers indent item own) after items others
    have elements := Items.cons before valued .nil rest
    rw [dumpItems, comma_text]
    simpa only [rereadItems, List.append_assoc, List.cons_append, List.nil_append] using elements

theorem members_dumpFields (numbers : ∀ x, x ≠ 0 → Number (floatText x)) (indent : Nat)
    (key : Bytes) {b c v e : Bytes} {first : Json} (before : Blanks b) (between : Blanks c)
    (valued : Value (Counted strtod) v first) (after : Blanks e) :
    ∀ fields : List (Bytes × Json), StoredFields fields →
    Members (Counted strtod) (b ++ str "\"" ++ escapeString key ++ str "\":" ++ c ++ v ++
        dumpFields floatText prettyPrint indentStep indent fields ++ e)
      ((key, first) :: rereadFields floatText strtod fields)
  | [], _ => by
    rw [member_text]
    exact .last before (chars_escapeString key) .nil between valued after
  | (key', value) :: fields, stored => by
    obtain ⟨own, others⟩ : Stored value ∧ StoredFields fields := by
      simpa only [StoredFields] using stored
    have rest := members_dumpFields numbers indent key'
      (blanks_append (blanks_newline prettyPrint) (blanks_spaces indent))
      (blanks_space prettyPrint) (value_dumpAt numbers indent value own) after fields others
    have members := Members.cons before (chars_escapeString key) .nil between valued .nil rest
    rw [member_text, dumpFields, comma_text]
    simpa only [rereadFields, List.append_assoc, List.cons_append, List.nil_append] using members

end

/-- The text that is written, in any form, is read as the value that it was written for. -/
theorem parse_dump (numbers : ∀ x, x ≠ 0 → Number (floatText x)) (indent : Nat) {j : Json}
    (stored : Stored j) :
    Parser.parse strtod (j.dumpAt floatText prettyPrint indentStep indent) =
      some (.ok (reread floatText strtod j)) :=
  Parser.parse_value (value_dumpAt prettyPrint indentStep numbers indent j stored)

/-- A value with a negative zero, an escape, a control character and a byte that is not a
character. -/
def mixed : Json := .object [
  (str "a", .array [.integer (-7), .float (3 / 2 : Rat), .float .negativeZero, .null]),
  (str "b", .string [34, 1, 195])]

def mixedDouble (text : Bytes) : Double :=
  if text = str "-0.0" then .negativeZero else (3 / 2 : Rat)

theorem parse_dump_mixed :
    Parser.parse mixedDouble (mixed.dumpAt (fun _ => str "1.5") true 4 0) = some (.ok mixed) := by
  have number : Number (str "1.5") := by
    have text : str "1.5" = [49] ++ ([46, 53] ++ []) := rfl
    have digits : Digits [53] := ⟨by simp, by simp [isDigit]⟩
    rw [text]
    exact .plus (.parts (.digits rfl (by decide) (by simp)) (.point digits) .none)
  have ordered : str "a" < str "b" := by decide
  have other : (Double.ofRat (3 / 2)).value ≠ 0 := by simp [Double.ofRat]
  have written : numberText (fun _ => str "1.5") (3 / 2 : Rat) = str "1.5" := if_neg other
  have same : reread (fun _ => str "1.5") mixedDouble mixed = mixed := by
    simp only [mixed, reread, rereadFields, rereadItems, written]
    rfl
  have stored : Stored mixed := by
    simp [mixed, Stored, StoredFields, StoredItems, ordered]
  have parsed : Parser.parse mixedDouble (mixed.dumpAt (fun _ => str "1.5") true 4 0) =
      some (.ok (reread (fun _ => str "1.5") mixedDouble mixed)) :=
    parse_dump true 4 (fun _ _ => number) 0 stored
  rwa [same] at parsed

end RoundTrip

end HttpAudioServer.Json

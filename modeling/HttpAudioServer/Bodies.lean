import HttpAudioServer.Adding
import HttpAudioServer.Documents

/-! What the page sends is what the server reads: `JSON.stringify` on the one side and `json::parse`
on the other, for any text. -/
namespace HttpAudioServer

open Lexer Grammar

theorem char_valid (ch : Char) : ch.toNat < 0x110000 := by
  rcases ch.valid with low | ⟨_, high⟩
  · exact Nat.lt_trans low (by decide)
  · exact high

theorem Grammar.utf8_char (ch : Char) : utf8 ch.toNat = String.utf8EncodeChar ch := by
  have valid := char_valid ch
  unfold utf8 String.utf8EncodeChar
  simp only [show ch.val.toNat = ch.toNat from rfl]
  generalize ch.toNat = n at valid
  by_cases one : n < 0x80
  · rw [if_pos one, if_pos (show n ≤ 127 by omega)]
  rw [if_neg one, if_neg (show ¬ n ≤ 127 by omega)]
  by_cases two : n < 0x800
  · rw [if_pos two, if_pos (show n ≤ 2047 by omega), Nat.mod_eq_of_lt (show n / 64 < 32 by omega),
      Nat.add_comm (n / 64), Nat.add_comm (n % 64)]
  rw [if_neg two, if_neg (show ¬ n ≤ 2047 by omega)]
  by_cases three : n < 0x10000
  · rw [if_pos three, if_pos (show n ≤ 65535 by omega),
      Nat.mod_eq_of_lt (show n / 4096 < 16 by omega), Nat.add_comm (n / 4096),
      Nat.add_comm (n / 64 % 64), Nat.add_comm (n % 64)]
  · rw [if_neg three, if_neg (show ¬ n ≤ 65535 by omega),
      Nat.mod_eq_of_lt (show n / 262144 < 8 by omega), Nat.add_comm (n / 262144),
      Nat.add_comm (n / 4096 % 64), Nat.add_comm (n / 64 % 64), Nat.add_comm (n % 64)]

namespace Adding

theorem unescaped_of_le {b : UInt8} (high : 128 ≤ b.toNat) : isUnescaped b = true := by
  have printed : 32 ≤ b := UInt8.le_iff_toNat_le.mpr (Nat.le_trans (by decide) high)
  have quote : b ≠ 34 := by
    rintro rfl
    revert high
    decide
  have backslash : b ≠ 92 := by
    rintro rfl
    revert high
    decide
  simp [isUnescaped, printed, quote, backslash]

theorem chars_append {s t v : Bytes} (plain : ∀ b ∈ s, isUnescaped b = true) (rest : Chars t v) :
    Chars (s ++ t) (s ++ v) := by
  induction s with
  | nil => exact rest
  | cons b s ih =>
    exact .plain (plain b List.mem_cons_self)
      (ih fun b member => plain b (List.mem_cons_of_mem _ member))

theorem utf8EncodeChar_one {ch : Char} (one : ch.toNat < 128) :
    String.utf8EncodeChar ch = [UInt8.ofNat ch.toNat] := by
  unfold String.utf8EncodeChar
  exact if_pos (Nat.le_of_lt_succ one)

theorem toNat_ofNat {n : Nat} (small : n < 256) : (UInt8.ofNat n).toNat = n := by
  rw [UInt8.toNat_ofNat']
  exact Nat.mod_eq_of_lt small

theorem unescaped_utf8 {ch : Char} (printed : 32 ≤ ch.toNat) (quote : ch.toNat ≠ 34)
    (backslash : ch.toNat ≠ 92) : ∀ b ∈ String.utf8EncodeChar ch, isUnescaped b = true := by
  by_cases one : ch.toNat < 128
  · rw [utf8EncodeChar_one one]
    intro b member
    rw [List.mem_singleton.mp member]
    have all : ∀ n < 128, 32 ≤ n → n ≠ 34 → n ≠ 92 → isUnescaped (UInt8.ofNat n) = true := by
      decide
    exact all _ one printed quote backslash
  · intro b member
    refine unescaped_of_le ?_
    rw [← Grammar.utf8_char] at member
    unfold utf8 at member
    rw [if_neg (show ¬ ch.toNat < 0x80 from one)] at member
    have valid : ch.toNat < 0x110000 := char_valid ch
    split at member
    · simp only [List.mem_cons, List.not_mem_nil, or_false] at member
      rcases member with rfl | rfl
      all_goals
        rw [Nat.toUInt8_eq, toNat_ofNat (by omega)]
        omega
    split at member
    · simp only [List.mem_cons, List.not_mem_nil, or_false] at member
      rcases member with rfl | rfl | rfl
      all_goals
        rw [Nat.toUInt8_eq, toNat_ofNat (by omega)]
        omega
    · simp only [List.mem_cons, List.not_mem_nil, or_false] at member
      rcases member with rfl | rfl | rfl | rfl
      all_goals
        rw [Nat.toUInt8_eq, toNat_ofNat (by omega)]
        omega

theorem chars_quote (ch : Char) {s v : Bytes} (rest : Chars s v) :
    Chars ((quote ch).flatMap String.utf8EncodeChar ++ s) (String.utf8EncodeChar ch ++ v) := by
  have known : ∀ n, ch.toNat = n → ch = Char.ofNat n := by
    rintro _ rfl
    exact (Char.ofNat_toNat ch).symm
  unfold quote
  split
  · rename_i special
    rcases special with rfl | rfl
    · exact .escape rfl rest
    · exact .escape rfl rest
  rename_i plain
  iterate 5
    split
    · rename_i code
      rw [known _ code]
      exact .escape rfl rest
  split
  · rename_i low
    have text : ∀ n < 32, ['\\', 'u', '0', '0', Nat.digitChar (n / 16), Nat.digitChar (n % 16)].flatMap
          String.utf8EncodeChar =
        [92, 117, 48, 48, (Nat.digitChar (n / 16)).toUInt8, (Nat.digitChar (n % 16)).toUInt8] ∧
        hexDigit (Nat.digitChar (n / 16)).toUInt8 = some (n / 16) ∧
        hexDigit (Nat.digitChar (n % 16)).toUInt8 = some (n % 16) := by decide
    obtain ⟨text, first, second⟩ := text _ low
    have hex : Hex 48 48 (Nat.digitChar (ch.toNat / 16)).toUInt8
        (Nat.digitChar (ch.toNat % 16)).toUInt8 ch.toNat :=
      ⟨0, 0, _, _, rfl, rfl, first, second, by omega⟩
    rw [text, ← Grammar.utf8_char]
    exact .unicode hex (fun high => absurd high.1 (by omega)) rest
  · rename_i printed
    have other : ch.toNat ≠ 34 ∧ ch.toNat ≠ 92 := by
      constructor
      · intro code
        exact plain (.inl (known _ code))
      · intro code
        exact plain (.inr (known _ code))
    rw [List.flatMap_singleton]
    exact chars_append (unescaped_utf8 (Nat.le_of_not_lt printed) other.1 other.2) rest

theorem chars_file (file : List Char) :
    Chars ((file.flatMap quote).flatMap String.utf8EncodeChar)
      (file.flatMap String.utf8EncodeChar) := by
  induction file with
  | nil => exact .nil
  | cons ch file ih =>
    rw [List.flatMap_cons, List.flatMap_cons, List.flatMap_append]
    exact chars_quote ch ih

theorem document_body (strtod : Bytes → Double) (file : List Char) :
    Document (Counted strtod) (body file)
      (.object [(str "filename", .string (file.flatMap String.utf8EncodeChar))]) := by
  have key : Chars (str "filename") (str "filename") := by
    have plain : ((str "filename").all isUnescaped) = true := by decide
    have chars := chars_append (List.all_eq_true.mp plain) .nil
    rwa [List.append_nil] at chars
  have members := @Members.last (Counted strtod) _ _ _ _ _ _ _ _ .nil key .nil .nil
    (.string (chars_file file)) .nil
  have object := Value.object members
  have text : str "\x7b\"filename\":\"" = 123 :: 34 :: (str "filename" ++ [34, 58, 34]) := rfl
  have close : str "\"\x7d" = [34, 125] := rfl
  have whole : body file = 123 :: ([] ++ 34 :: (str "filename" ++ 34 :: ([] ++ 58 :: ([] ++
      (34 :: ((file.flatMap quote).flatMap String.utf8EncodeChar ++ [34]) ++ [])))) ++ [125]) := by
    simp [body, text, close]
  rw [whole]
  exact Parser.document_value object

/-- A file that is typed in, through `JSON.stringify`, the event handler and `json::parse`: the
stream gets it character for character. -/
theorem typed_file_appended {c : Codec} (strtod : Bytes → Double) (floatText : Rat → Bytes)
    (outside : Outside) {streams : Streams c} {streamId : Bytes} {stream : Stream c}
    (isId : IsStreamId streamId) (live : streams streamId = some stream) (file : List Char) :
    ∃ sent, serve (Parser.result strtod) floatText streams ⟨request streamId file, outside⟩ =
      some (Function.update streams streamId
        (some (stream.append (file.flatMap String.utf8EncodeChar))), sent) :=
  serve_request floatText outside isId live (Parser.result_of_document (document_body strtod file))

theorem typed_file_appended_quoted :
    ∃ sent, serve (Parser.result fun _ => .ofRat 0) (fun _ => str "-1")
        (Function.update noStreams idOfA.text (some (.create Codec.plain 196000)))
        ⟨request idOfA.text ['"', 'é'], ⟨none, idOfA, .ofFiles fun _ _ => []⟩⟩ =
      some (Function.update
        (Function.update noStreams idOfA.text (some (.create Codec.plain 196000))) idOfA.text
        (some ((Stream.create Codec.plain 196000).append [34, 195, 169])), sent) :=
  typed_file_appended _ _ _ idOfA.isStreamId (Function.update_self ..) ['"', 'é']

end Adding

end HttpAudioServer

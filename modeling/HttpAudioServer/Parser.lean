import HttpAudioServer.Library.Throwing
import HttpAudioServer.Tokens

/-! The syntactic analysis of `json::parse`: it accepts exactly the documents of the grammar, and
never reads behind its buffer. The text is given as a string, and there is no callback. -/
namespace HttpAudioServer

open Throwing Lexer

/-- The parser as the token it has read last, and what is left of the buffer. -/
abbrev Parser (α : Type) := Procedure Token Exn α

namespace Parser

def getToken : Parser Unit := .ofOption fun token => scan token.cursor

/-- How the last token is shown in an error. A byte is shown as a character. -/
def lastTokenText (token : Token) : String :=
  if token.type = .parseError then
    "'" ++ String.ofList (token.text.map fun ch => Char.ofNat ch.toNat) ++ "'"
  else tokenTypeName token.type

def expect (t : TokenType) : Parser Unit := do
  let token ← get
  if t ≠ token.type then
    throw ⟨"parse error - unexpected " ++ lastTokenText token ++ "; expected " ++ tokenTypeName t⟩

def unexpect (t : TokenType) : Parser Unit := do
  let token ← get
  if t = token.type then throw ⟨"parse error - unexpected " ++ lastTokenText token⟩

def skipSeparator : Parser Unit := do
  if (← get).type = .valueSeparator then getToken

section Model

variable (strtod : Bytes → Double)

mutual

def parseInternal : Nat → Parser Json
  | 0 => .stuck
  | fuel + 1 => do
    let token ← get
    match token.type with
    | .beginObject => do
      getToken
      -- closing } -> we are done
      if (← get).type = .endObject then
        getToken
        return .object []
      -- no comma is expected here
      unexpect .valueSeparator
      let fields ← parseMembers fuel []
      expect .endObject
      getToken
      return .object fields
    | .beginArray => do
      getToken
      -- closing ] -> we are done
      if (← get).type = .endArray then
        getToken
        return .array []
      -- no comma is expected here
      unexpect .valueSeparator
      let items ← parseItems fuel []
      expect .endArray
      getToken
      return .array items
    | .literalNull => do
      getToken
      return .null
    | .valueString => do
      let s ← .ofExcept (Lexer.getString token.text)
      getToken
      return .string s
    | .literalTrue => do
      getToken
      return .boolean true
    | .literalFalse => do
      getToken
      return .boolean false
    | .valueNumber => do
      getToken
      return Lexer.getNumber strtod token.text
    -- the last token was unexpected
    | type => do
      unexpect type
      .stuck

def parseMembers : Nat → List (Bytes × Json) → Parser (List (Bytes × Json))
  | 0, _ => .stuck
  | fuel + 1, fields => do
    skipSeparator
    -- store key
    expect .valueString
    let key ← .ofExcept (Lexer.getString (← get).text)
    -- parse separator (:)
    getToken
    expect .nameSeparator
    -- parse and add value
    getToken
    let value ← parseInternal fuel
    if (← get).type = .valueSeparator then
      parseMembers fuel (Json.insertField key value fields)
    else return Json.insertField key value fields

def parseItems : Nat → List Json → Parser (List Json)
  | 0, _ => .stuck
  | fuel + 1, items => do
    skipSeparator
    -- parse value
    let value ← parseInternal fuel
    if (← get).type = .valueSeparator then parseItems fuel (items ++ [value])
    else return items ++ [value]

end

/-- The constructor reads the first token. -/
def parseDocument (fuel : Nat) : Parser Json := do
  getToken
  let j ← parseInternal strtod fuel
  expect .endOfInput
  return j

/-- `json::parse`. The buffer ends with a null; the fuel is enough for its length. -/
def parse (text : Bytes) : Option (Except Exn Json) :=
  (parseDocument strtod (2 * (text.length + 1)) ⟨.uninitialized, [], text ++ [0]⟩).run.map
    (Except.map Prod.fst)

end Model

section Tokens

open Grammar

def here (token : Token) : Bytes := token.text ++ token.cursor

structure Sees (token : Token) : Prop where
  lexeme : Lexeme token.type token.text
  ends : (here token).getLast? = some 0

variable {token : Token}

theorem nonzero_of_digit {ch : UInt8} (digit : isDigit ch = true) : ch ≠ 0 := by
  rintro rfl
  cases digit

theorem nonzero_of_number {s : Bytes} (number : Number s) : ∀ ch ∈ s, ch ≠ 0 := by
  have unsigned : ∀ s, Unsigned s → ∀ ch ∈ s, ch ≠ 0 := by
    rintro _ ⟨integer, fraction, power⟩ ch member
    rcases List.mem_append.mp member with member | member
    · cases integer with
      | zero => simp_all
      | digits first _ others =>
        rcases List.mem_cons.mp member with rfl | member
        · exact nonzero_of_digit first
        · exact nonzero_of_digit (others ch member)
    rcases List.mem_append.mp member with member | member
    · cases fraction with
      | none => cases member
      | point digits =>
        rcases List.mem_cons.mp member with rfl | member
        · decide
        · exact nonzero_of_digit (digits.2 ch member)
    · cases power with
      | none => cases member
      | letter letter signed digits =>
        rcases List.mem_cons.mp member with rfl | member
        · obtain rfl | rfl := letter <;> decide
        rcases List.mem_append.mp member with member | member
        · obtain rfl | rfl | rfl := signed <;> simp_all
        · exact nonzero_of_digit (digits.2 ch member)
  cases number with
  | plus number => exact unsigned _ number
  | minus number =>
    intro ch member
    rcases List.mem_cons.mp member with rfl | member
    · decide
    · exact unsigned _ number ch member

theorem nonzero_of_blanks {b : Bytes} (blanks : Blanks b) : ∀ ch ∈ b, ch ≠ 0 := by
  induction blanks with
  | nil => simp
  | space blank _ ih =>
    intro ch member
    rcases List.mem_cons.mp member with rfl | member
    · rintro rfl
      cases blank
    · exact ih ch member
  | mark _ ih =>
    intro ch member
    simp only [List.mem_cons] at member
    rcases member with rfl | rfl | rfl | member
    · decide
    · decide
    · decide
    · exact ih ch member

theorem Sees.more (sees : Sees token) (more : token.type ≠ .endOfInput) :
    token.cursor.getLast? = some 0 := by
  obtain ⟨type, text, cursor⟩ := token
  obtain ⟨lexeme, ends⟩ := sees
  have last : text.getLast? ≠ some 0 := by
    cases lexeme with
    | endOfInput => exact absurd rfl more
    | string raw => simp [List.getLast?_cons]
    | number number =>
      intro last
      exact nonzero_of_number number 0 (List.mem_of_getLast? last) rfl
    | parseError other => simpa using other
    | _ => decide
  rw [here, List.getLast?_append] at ends
  cases rest : cursor.getLast? with
  | none =>
    rw [rest] at ends
    exact absurd ends last
  | some ch => simpa [rest] using ends

theorem ensures_next (ends : token.cursor.getLast? = some 0) {post : Unit → Token → Prop}
    (next : ∀ b t, token.cursor = b ++ here t → Blanks b → Sees t → post () t) :
    getToken.Ensures token post := by
  obtain ⟨b, same, blanks⟩ := skipBlanks_spec token.cursor
  have nonempty : skipBlanks token.cursor ≠ [] := by
    intro empty
    rw [empty, List.append_nil] at same
    rw [same] at ends
    exact nonzero_of_blanks blanks 0 (List.mem_of_getLast? ends) rfl
  obtain ⟨t, scanned⟩ := scanToken_some nonempty
  obtain ⟨split, lexeme⟩ := lexed_of_scanToken scanned
  refine Procedure.ensures_ofOption ⟨t, scanned, next b t ?_ blanks ⟨lexeme, ?_⟩⟩
  · rw [here, ← split]
    exact same
  · rw [here, ← split]
    rw [same, List.getLast?_append] at ends
    cases last : (skipBlanks token.cursor).getLast? with
    | none => exact absurd (List.getLast?_eq_none_iff.mp last) nonempty
    | some ch => simpa [last] using ends

theorem ensures_getToken (sees : Sees token) (more : token.type ≠ .endOfInput)
    {post : Unit → Token → Prop}
    (next : ∀ b t, token.cursor = b ++ here t → Blanks b → Sees t → post () t) :
    getToken.Ensures token post :=
  ensures_next (sees.more more) next

theorem ensures_expect {t : TokenType} {post : Unit → Token → Prop}
    (holds : token.type = t → post () token) : (expect t).Ensures token post := by
  refine Procedure.ensures_get_bind ?_
  split
  · exact Procedure.ensures_throw _
  · rename_i same
    exact Procedure.ensures_pure (holds (not_not.mp same).symm)

theorem ensures_unexpect {t : TokenType} {post : Unit → Token → Prop}
    (holds : token.type ≠ t → post () token) : (unexpect t).Ensures token post := by
  refine Procedure.ensures_get_bind ?_
  split
  · exact Procedure.ensures_throw _
  · rename_i other
    exact Procedure.ensures_pure (holds fun same => other same.symm)

theorem lexeme_nonempty {type : TokenType} {text : Bytes} (lexeme : Lexeme type text) :
    0 < text.length := by
  have unsigned : ∀ s : Bytes, Unsigned s → 0 < s.length := by
    rintro _ ⟨integer, _, _⟩
    cases integer <;> simp
  cases lexeme with
  | number number =>
    cases number with
    | plus number => exact unsigned _ number
    | minus => simp
  | string => simp
  | parseError => simp
  | _ => decide

def separator (token : Token) : Bytes := if token.type = .valueSeparator then [44] else []

theorem ensures_skipSeparator (sees : Sees token) {post : Unit → Token → Prop}
    (next : ∀ b t, here token = separator token ++ (b ++ here t) → Blanks b → Sees t → post () t) :
    skipSeparator.Ensures token post := by
  refine Procedure.ensures_get_bind ?_
  split
  · rename_i comma
    refine ensures_getToken sees (by simp [comma]) fun b t same blanks sees' => ?_
    refine next b t ?_ blanks sees'
    have text : token.text = [44] := by
      have lexeme := sees.lexeme
      rw [comma] at lexeme
      generalize token.text = text at lexeme
      cases lexeme
      rfl
    rw [here, separator, if_pos comma, text, same]
  · rename_i other
    refine Procedure.ensures_pure (next [] token ?_ .nil sees)
    rw [separator, if_neg other]
    rfl

end Tokens

section Soundness

open Grammar

variable {strtod : Bytes → Double}

theorem items_blanks {b s : Bytes} {items : List Json} (blanks : Blanks b)
    (elements : Items (Counted strtod) s items) : Items (Counted strtod) (b ++ s) items := by
  cases elements with
  | last before value after =>
    rw [← List.append_assoc]
    exact .last (blanks_append blanks before) value after
  | cons before value after rest =>
    rw [← List.append_assoc]
    exact .cons (blanks_append blanks before) value after rest

theorem members_blanks {b s : Bytes} {fields : List (Bytes × Json)} (blanks : Blanks b)
    (members : Members (Counted strtod) s fields) : Members (Counted strtod) (b ++ s) fields := by
  cases members with
  | last before chars between between' valued after =>
    rw [← List.append_assoc]
    exact .last (blanks_append blanks before) chars between between' valued after
  | cons before chars between between' valued after rest =>
    rw [← List.append_assoc]
    exact .cons (blanks_append blanks before) chars between between' valued after rest

structure Reads (strtod : Bytes → Double) (token : Token) (j : Json) (t : Token) : Prop where
  sees : Sees t
  shorter : (here t).length < (here token).length
  read : ∃ s b, here token = s ++ (b ++ here t) ∧ Value (Counted strtod) s j ∧ Blanks b

/-- What the parser has read, when it gets that far. -/
structure Sound (strtod : Bytes → Double) (fuel : Nat) : Prop where
  value : ∀ token, Sees token → 2 * (here token).length ≤ fuel →
    (parseInternal strtod fuel).Ensures token (Reads strtod token)
  items : ∀ token items, Sees token → 2 * (here token).length + 1 ≤ fuel →
    (parseItems strtod fuel items).Ensures token fun all t => Sees t ∧ ∃ s js,
      here token = separator token ++ (s ++ here t) ∧ all = items ++ js ∧ Items (Counted strtod) s js
  members : ∀ token fields, Sees token → 2 * (here token).length + 1 ≤ fuel →
    (parseMembers strtod fuel fields).Ensures token fun all t => Sees t ∧ ∃ s ms,
      here token = separator token ++ (s ++ here t) ∧
      all = ms.foldl (fun o field => Json.insertField field.1 field.2 o) fields ∧
      Members (Counted strtod) s ms

variable {token : Token}

theorem ensures_leaf (sees : Sees token) (more : token.type ≠ .endOfInput) {j : Json}
    (value : Value (Counted strtod) token.text j) :
    (do getToken; return j : Parser Json).Ensures token (Reads strtod token) := by
  refine Procedure.Ensures.bind (ensures_getToken sees more fun b t same blanks sees' => ?_)
  have split : here token = token.text ++ (b ++ here t) := by rw [here, same]
  have nonempty := lexeme_nonempty sees.lexeme
  refine Procedure.ensures_pure ⟨sees', ?_, token.text, b, split, value, blanks⟩
  rw [split]
  simp only [List.length_append]
  omega

theorem ensures_end (first : Token) {t : Token} {s : Bytes} {j : Json} (sees : Sees t)
    (more : t.type ≠ .endOfInput) (split : here first = s ++ here t)
    (value : Value (Counted strtod) (s ++ t.text) j) :
    (do getToken; return j : Parser Json).Ensures t (Reads strtod first) := by
  refine Procedure.Ensures.bind (ensures_getToken sees more fun b u same blanks sees' => ?_)
  have whole : here first = (s ++ t.text) ++ (b ++ here u) := by
    rw [split, here, same, List.append_assoc]
  have nonempty := lexeme_nonempty sees.lexeme
  refine Procedure.ensures_pure ⟨sees', ?_, s ++ t.text, b, whole, value, blanks⟩
  rw [whole]
  simp only [List.length_append]
  omega

theorem text_of_type {type : TokenType} {text : Bytes} (lexeme : Lexeme type text) :
    (type = .endOfInput → text = [0]) ∧ (type = .valueSeparator → text = [44]) ∧
    (type = .nameSeparator → text = [58]) ∧ (type = .endArray → text = [93]) ∧
    (type = .endObject → text = [125]) ∧
    (type = .valueString → ∃ body, Raw body ∧ text = 34 :: (body ++ [34])) := by
  cases lexeme with
  | string raw => simpa using raw
  | _ => simp

theorem chars_of_getString {body v : Bytes} (raw : Raw body)
    (valued : Lexer.getString (34 :: (body ++ [34])) = .ok v) : Chars body v := by
  refine chars_of_stringValue raw ?_
  simpa [Lexer.getString] using valued

variable {fuel : Nat}

theorem Sound.array (sound : Sound strtod fuel) {cursor : Bytes}
    (sees : Sees ⟨.beginArray, [91], cursor⟩)
    (enough : 2 * (here ⟨.beginArray, [91], cursor⟩).length ≤ fuel + 1) :
    (parseInternal strtod (fuel + 1)).Ensures ⟨.beginArray, [91], cursor⟩
      (Reads strtod ⟨.beginArray, [91], cursor⟩) := by
  rw [parseInternal]
  refine Procedure.ensures_get_bind (Procedure.Ensures.bind ?_)
  refine ensures_getToken sees (by simp) fun b t same blanks sees' => ?_
  have split : here ⟨.beginArray, [91], cursor⟩ = (91 :: b) ++ here t := congrArg (91 :: ·) same
  refine Procedure.ensures_get_bind ?_
  by_cases closing : t.type = .endArray
  · rw [if_pos closing]
    have text := (text_of_type sees'.lexeme).2.2.2.1 closing
    refine ensures_end _ sees' (by simp [closing]) split ?_
    rw [text]
    exact .emptyArray blanks
  · rw [if_neg closing]
    refine Procedure.Ensures.bind (ensures_unexpect fun other => ?_)
    refine Procedure.Ensures.bind ((sound.items t [] sees' ?_).mono ?_)
    · rw [split] at enough
      simp only [List.length_append, List.length_cons] at enough
      omega
    · rintro _ u ⟨sees'', s, items, split', rfl, elements⟩
      refine Procedure.Ensures.bind (ensures_expect fun closing => ?_)
      have text := (text_of_type sees''.lexeme).2.2.2.1 closing
      refine ensures_end _ sees'' (s := 91 :: (b ++ s)) (by simp [closing]) ?_ ?_
      · rw [split, split', separator, if_neg other]
        simp
      · rw [text]
        exact .array (items_blanks blanks elements)

theorem Sound.object (sound : Sound strtod fuel) {cursor : Bytes}
    (sees : Sees ⟨.beginObject, [123], cursor⟩)
    (enough : 2 * (here ⟨.beginObject, [123], cursor⟩).length ≤ fuel + 1) :
    (parseInternal strtod (fuel + 1)).Ensures ⟨.beginObject, [123], cursor⟩
      (Reads strtod ⟨.beginObject, [123], cursor⟩) := by
  rw [parseInternal]
  refine Procedure.ensures_get_bind (Procedure.Ensures.bind ?_)
  refine ensures_getToken sees (by simp) fun b t same blanks sees' => ?_
  have split : here ⟨.beginObject, [123], cursor⟩ = (123 :: b) ++ here t := congrArg (123 :: ·) same
  refine Procedure.ensures_get_bind ?_
  by_cases closing : t.type = .endObject
  · rw [if_pos closing]
    have text := (text_of_type sees'.lexeme).2.2.2.2.1 closing
    refine ensures_end _ sees' (by simp [closing]) split ?_
    rw [text]
    exact .emptyObject blanks
  · rw [if_neg closing]
    refine Procedure.Ensures.bind (ensures_unexpect fun other => ?_)
    refine Procedure.Ensures.bind ((sound.members t [] sees' ?_).mono ?_)
    · rw [split] at enough
      simp only [List.length_append, List.length_cons] at enough
      omega
    · rintro _ u ⟨sees'', s, fields, split', rfl, members⟩
      refine Procedure.Ensures.bind (ensures_expect fun closing => ?_)
      have text := (text_of_type sees''.lexeme).2.2.2.2.1 closing
      refine ensures_end _ sees'' (s := 123 :: (b ++ s)) (by simp [closing]) ?_ ?_
      · rw [split, split', separator, if_neg other]
        simp
      · rw [text]
        exact .object (members_blanks blanks members)

theorem Sound.value_succ (sound : Sound strtod fuel) (token : Token) (sees : Sees token)
    (enough : 2 * (here token).length ≤ fuel + 1) :
    (parseInternal strtod (fuel + 1)).Ensures token (Reads strtod token) := by
  obtain ⟨type, text, cursor⟩ := token
  have lexeme := sees.lexeme
  cases lexeme with
  | beginArray => exact sound.array sees enough
  | beginObject => exact sound.object sees enough
  | literalNull =>
    rw [parseInternal]
    exact Procedure.ensures_get_bind (ensures_leaf sees (by simp) .null)
  | literalTrue =>
    rw [parseInternal]
    exact Procedure.ensures_get_bind (ensures_leaf sees (by simp) .literalTrue)
  | literalFalse =>
    rw [parseInternal]
    exact Procedure.ensures_get_bind (ensures_leaf sees (by simp) .literalFalse)
  | number number =>
    rw [parseInternal]
    exact Procedure.ensures_get_bind (ensures_leaf sees (by simp) (.number number rfl))
  | string raw =>
    rw [parseInternal]
    refine Procedure.ensures_get_bind (Procedure.Ensures.bind ?_)
    refine Procedure.ensures_ofExcept fun v valued => ?_
    exact ensures_leaf sees (by simp) (.string (chars_of_getString raw valued))
  | _ =>
    rw [parseInternal]
    refine Procedure.ensures_get_bind (Procedure.Ensures.bind ?_)
    exact ensures_unexpect fun other => absurd rfl other

theorem Sound.items_succ (sound : Sound strtod fuel) (token : Token) (items : List Json)
    (sees : Sees token) (enough : 2 * (here token).length + 1 ≤ fuel + 1) :
    (parseItems strtod (fuel + 1) items).Ensures token fun all t => Sees t ∧ ∃ s js,
      here token = separator token ++ (s ++ here t) ∧ all = items ++ js ∧
      Items (Counted strtod) s js := by
  rw [parseItems]
  refine Procedure.Ensures.bind (ensures_skipSeparator sees fun b t split blanks sees' => ?_)
  have length := congrArg List.length split
  simp only [List.length_append] at length
  refine Procedure.Ensures.bind ((sound.value t sees' (by omega)).mono ?_)
  rintro j u ⟨after, shorter, s, b', split', value, blanks'⟩
  refine Procedure.ensures_get_bind ?_
  by_cases comma : u.type = .valueSeparator
  · rw [if_pos comma]
    refine (sound.items u _ after (by omega)).mono ?_
    rintro _ v ⟨last, s', js, split'', rfl, rest⟩
    refine ⟨last, _, j :: js, ?_, by simp, .cons blanks value blanks' rest⟩
    rw [split, split', split'', show separator u = [44] from if_pos comma]
    simp
  · rw [if_neg comma]
    refine Procedure.ensures_pure ⟨after, _, [j], ?_, rfl, .last blanks value blanks'⟩
    rw [split, split']
    simp

theorem Sound.members_succ (sound : Sound strtod fuel) (token : Token)
    (fields : List (Bytes × Json)) (sees : Sees token)
    (enough : 2 * (here token).length + 1 ≤ fuel + 1) :
    (parseMembers strtod (fuel + 1) fields).Ensures token fun all t => Sees t ∧ ∃ s ms,
      here token = separator token ++ (s ++ here t) ∧
      all = ms.foldl (fun o field => Json.insertField field.1 field.2 o) fields ∧
      Members (Counted strtod) s ms := by
  rw [parseMembers]
  refine Procedure.Ensures.bind (ensures_skipSeparator sees fun b t split blanks sees' => ?_)
  refine Procedure.Ensures.bind (ensures_expect fun typed => ?_)
  obtain ⟨body, raw, text⟩ := (text_of_type sees'.lexeme).2.2.2.2.2 typed
  refine Procedure.ensures_get_bind (Procedure.Ensures.bind ?_)
  refine Procedure.ensures_ofExcept fun key valued => ?_
  have chars : Chars body key := chars_of_getString raw (text ▸ valued)
  refine Procedure.Ensures.bind (ensures_getToken sees' (by simp [typed])
    fun b₁ colon same₁ blanks₁ sees₁ => ?_)
  refine Procedure.Ensures.bind (ensures_expect fun named => ?_)
  have colon_text := (text_of_type sees₁.lexeme).2.2.1 named
  refine Procedure.Ensures.bind (ensures_getToken sees₁ (by simp [named])
    fun b₂ first same₂ blanks₂ sees₂ => ?_)
  have whole : here token = separator token ++ (b ++ 34 :: (body ++ 34 :: (b₁ ++ 58 ::
      (b₂ ++ here first)))) := by
    rw [split, here, text, same₁, here, colon_text, same₂]
    simp
  have length := congrArg List.length whole
  simp only [List.length_append, List.length_cons] at length
  refine Procedure.Ensures.bind ((sound.value first sees₂ (by omega)).mono ?_)
  rintro j u ⟨sees₃, shorter, s, b₃, split₃, value, blanks₃⟩
  refine Procedure.ensures_get_bind ?_
  by_cases comma : u.type = .valueSeparator
  · rw [if_pos comma]
    refine (sound.members u _ sees₃ (by omega)).mono ?_
    rintro _ v ⟨sees₄, s', ms, split₄, rfl, rest⟩
    refine ⟨sees₄, _, (key, j) :: ms, ?_, rfl,
      .cons blanks chars blanks₁ blanks₂ value blanks₃ rest⟩
    rw [whole, split₃, split₄, show separator u = [44] from if_pos comma]
    simp
  · rw [if_neg comma]
    refine Procedure.ensures_pure ⟨sees₃, _, [(key, j)], ?_, rfl,
      .last blanks chars blanks₁ blanks₂ value blanks₃⟩
    rw [whole, split₃]
    simp

/-- The induction is on the fuel, which is spent by a call and by a round of a loop. -/
theorem sound (strtod : Bytes → Double) (fuel : Nat) : Sound strtod fuel := by
  induction fuel with
  | zero =>
    refine ⟨fun token sees enough => ?_, fun token _ _ enough => ?_, fun token _ _ enough => ?_⟩
    · have nonempty := lexeme_nonempty sees.lexeme
      rw [here, List.length_append] at enough
      omega
    · omega
    · omega
  | succ fuel ih => exact ⟨ih.value_succ, ih.items_succ, ih.members_succ⟩

end Soundness

end Parser

end HttpAudioServer

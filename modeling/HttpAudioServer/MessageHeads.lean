import HttpAudioServer.Mongoose

/-! The head of a message, as it is written by one side and read by the other: a first line, the
header fields and an empty line. -/
namespace HttpAudioServer

def crlf : Bytes := [13, 10]

def lines (ls : List Bytes) : Bytes := ls.flatMap fun line => line ++ crlf

def isText (ch : UInt8) : Bool := isPrint ch || 128 ≤ ch

def isVisible (ch : UInt8) : Bool := isText ch && ch ≠ 32

def IsLine (line : Bytes) : Prop := line ≠ [] ∧ ∀ ch ∈ line, isText ch = true

section Length

/-- The length of the head where all bytes are looked at. -/
def headLenFrom (i : Nat) : Bytes → Int
  | [] => 0
  | ch :: rest =>
    if isBad ch then -1
    else if ch = 10 ∧ rest.head? = some 10 then i + 2
    else if ch = 10 ∧ rest.take 2 = [13, 10] then i + 3
    else headLenFrom (i + 1) rest

theorem requestLenFrom_all {bufLen : Int} {s : Bytes} {i : Nat} (whole : (i + s.length : Nat) ≤ bufLen) :
    requestLenFrom bufLen i s = headLenFrom i s := by
  induction s generalizing i with
  | nil => rfl
  | cons ch rest ih =>
    rw [List.length_cons] at whole
    have one : rest.head? = some 10 → (i + 1 : Int) < bufLen := by
      intro next
      have length : 0 < rest.length := by
        rw [List.length_pos_iff]
        rintro rfl
        contradiction
      omega
    have two : rest.take 2 = [13, 10] → (i + 2 : Int) < bufLen := by
      intro next
      have length := congrArg List.length next
      rw [List.length_take, List.length_cons, List.length_singleton] at length
      omega
    rw [requestLenFrom, headLenFrom, if_neg (by omega), ih (by omega)]
    simp only [and_iff_right_of_imp one, and_iff_right_of_imp two]

theorem isText_iff {ch : UInt8} : isText ch = true ↔ isBad ch = false ∧ ch ≠ 10 ∧ ch ≠ 13 := by
  unfold isText isBad isPrint
  constructor
  · intro text
    refine ⟨?_, ?_, ?_⟩
    · simp only [Bool.or_eq_true, Bool.and_eq_true, decide_eq_true_eq] at text
      rcases text with printed | beyond
      · simp [printed]
      · simp [UInt8.not_lt.mpr beyond]
    · rintro rfl
      exact absurd text (by decide)
    · rintro rfl
      exact absurd text (by decide)
  · rintro ⟨good, feed, carriage⟩
    by_contra not_text
    simp only [Bool.or_eq_true, not_or, Bool.not_eq_true, decide_eq_true_eq, UInt8.not_le] at not_text
    simp [not_text, feed, carriage] at good

theorem headLenFrom_text {line : Bytes} (text : ∀ ch ∈ line, isText ch = true) (rest : Bytes)
    (i : Nat) : headLenFrom i (line ++ rest) = headLenFrom (i + line.length) rest := by
  induction line generalizing i with
  | nil => rfl
  | cons ch line ih =>
    obtain ⟨first, others⟩ := List.forall_mem_cons.mp text
    obtain ⟨good, feed, _⟩ := isText_iff.mp first
    have next := ih others (i + 1)
    rw [List.cons_append, headLenFrom, List.length_cons, ← Nat.add_assoc,
      Nat.add_right_comm i, ← next]
    simp [good, feed]

theorem headLenFrom_crlf {ch : UInt8} (text : isText ch = true) (rest : Bytes) (i : Nat) :
    headLenFrom i (crlf ++ ch :: rest) = headLenFrom (i + 2) (ch :: rest) := by
  obtain ⟨_, feed, carriage⟩ := isText_iff.mp text
  have carriage_good : isBad 13 = false := rfl
  have feed_good : isBad 10 = false := rfl
  change headLenFrom i (13 :: 10 :: ch :: rest) = _
  rw [headLenFrom, headLenFrom]
  simp [carriage_good, feed_good, feed, carriage]

theorem headLenFrom_end (rest : Bytes) (i : Nat) :
    headLenFrom i (crlf ++ crlf ++ rest) = i + 4 := by
  have carriage_good : isBad 13 = false := rfl
  have feed_good : isBad 10 = false := rfl
  change headLenFrom i (13 :: 10 :: 13 :: 10 :: rest) = _
  rw [headLenFrom, headLenFrom]
  simp [carriage_good, feed_good]
  omega

theorem headLenFrom_lines {line : Bytes} {ls : List Bytes} (isLine : IsLine line)
    (areLines : ∀ l ∈ ls, IsLine l) (rest : Bytes) (i : Nat) :
    headLenFrom i (lines (line :: ls) ++ crlf ++ rest) =
      i + (lines (line :: ls)).length + 2 := by
  have two : crlf.length = 2 := rfl
  induction ls generalizing line i with
  | nil =>
    have split : lines [line] ++ crlf ++ rest = line ++ (crlf ++ crlf ++ rest) := by
      simp [lines]
    rw [split, headLenFrom_text isLine.2, headLenFrom_end]
    simp only [lines, List.flatMap_cons, List.flatMap_nil, List.append_nil, List.length_append, two]
    omega
  | cons next ls ih =>
    obtain ⟨isNext, others⟩ := List.forall_mem_cons.mp areLines
    obtain ⟨ch, word, rfl⟩ := List.exists_cons_of_ne_nil isNext.1
    have split : lines (line :: (ch :: word) :: ls) ++ crlf ++ rest =
        line ++ (crlf ++ ch :: (word ++ crlf ++ lines ls ++ crlf ++ rest)) := by
      simp [lines]
    have again : ch :: (word ++ crlf ++ lines ls ++ crlf ++ rest) =
        lines ((ch :: word) :: ls) ++ crlf ++ rest := by
      simp [lines]
    rw [split, headLenFrom_text isLine.2,
      headLenFrom_crlf (isNext.2 ch List.mem_cons_self), again, ih isNext others]
    have whole : (lines (line :: (ch :: word) :: ls)).length =
        line.length + 2 + (lines ((ch :: word) :: ls)).length := by
      simp [lines, two]
      omega
    rw [whole]
    push_cast
    omega

theorem headLenFrom_le (s : Bytes) (i : Nat) : headLenFrom i s ≤ i + s.length := by
  induction s generalizing i with
  | nil => simp [headLenFrom]
  | cons ch rest ih =>
    have later := ih (i + 1)
    rw [headLenFrom, List.length_cons]
    split
    · omega
    · split
      case isTrue newline =>
        obtain ⟨x, xs, rfl⟩ : ∃ x xs, rest = x :: xs := by
          cases rest with
          | nil => simp at newline
          | cons x xs => exact ⟨x, xs, rfl⟩
        rw [List.length_cons]
        omega
      case isFalse =>
        split
        case isTrue crlf =>
          have two := congrArg List.length crlf.2
          rw [List.length_take, List.length_cons, List.length_singleton] at two
          omega
        case isFalse => omega

/-- What has been found stays found when more bytes come. -/
theorem headLenFrom_append {s : Bytes} {i : Nat} (found : headLenFrom i s ≠ 0)
    (more : Bytes) : headLenFrom i (s ++ more) = headLenFrom i s := by
  induction s generalizing i with
  | nil => exact absurd rfl found
  | cons ch rest ih =>
    rw [headLenFrom] at found
    rw [List.cons_append, headLenFrom, headLenFrom]
    by_cases bad : isBad ch = true
    · simp [bad]
    · simp only [bad, if_false, Bool.false_eq_true] at found ⊢
      -- a line feed may be the last byte, or be followed by the last one
      rcases rest with _ | ⟨x, _ | ⟨y, rest⟩⟩
      · simp [headLenFrom] at found
      · have nothing : ¬ (ch = 10 ∧ x = 10) → headLenFrom (i + 1) [x] ≠ 0 := by
          intro other
          simpa [other] using found
        by_cases newline : ch = 10 ∧ x = 10
        · simp [newline]
        · have stays := ih (nothing newline)
          have only : x ≠ 13 := by
            rintro rfl
            exact nothing newline rfl
          simp [newline, only]
          simpa using stays
      · have same_next : (x :: y :: rest ++ more).head? = (x :: y :: rest).head? := rfl
        have same_two : (x :: y :: rest ++ more).take 2 = (x :: y :: rest).take 2 := rfl
        rw [same_next, same_two]
        split_ifs at found ⊢
        · rfl
        · rfl
        · exact ih found

theorem headLenFrom_of_extended {s more : Bytes} (some_more : more ≠ [])
    (whole : headLenFrom 0 (s ++ more) = (s ++ more).length) : headLenFrom 0 s = 0 := by
  by_contra found
  have same := headLenFrom_append found more
  have bound := headLenFrom_le s 0
  have longer := List.length_pos_iff.mpr some_more
  rw [same, List.length_append] at whole
  omega

/-- All of the buffer is looked at if its length is an `int`. -/
theorem mgHttpGetRequestLen_all {s : Bytes} (small : s.length < 2147483648) :
    mgHttpGetRequestLen s (wrapInt s.length) = headLenFrom 0 s := by
  have length : wrapInt s.length = s.length := by
    unfold wrapInt
    exact Int.bmod_eq_of_le (by omega) (by omega)
  rw [mgHttpGetRequestLen, length]
  exact requestLenFrom_all (by omega)

theorem mgHttpGetRequestLen_large {s : Bytes} (large : 2147483648 ≤ s.length)
    (bounded : s.length < 4294967296) : mgHttpGetRequestLen s (wrapInt s.length) = 0 := by
  have negative : wrapInt s.length ≤ 0 := by
    unfold wrapInt
    rw [Int.bmod_def]
    split <;> omega
  rw [mgHttpGetRequestLen]
  cases s with
  | nil => rfl
  | cons ch rest => exact if_pos (by omega)

end Length

/-- A header field. The name goes up to the colon, and the value is from the first character that
counts to the last. -/
structure Field where
  name : Bytes
  value : Bytes
  named : name ≠ []
  name_visible : ∀ ch ∈ name, isVisible ch = true ∧ ch ≠ 58
  valued : value ≠ []
  value_text : ∀ ch ∈ value, isText ch = true
  value_head : ∀ ch ∈ value.head?, ch ≠ 32 ∧ ch ≠ 58
  value_last : ∀ ch ∈ value.getLast?, ch ≠ 32

def Field.line (f : Field) : Bytes := f.name ++ str ": " ++ f.value

/-- The fields and the empty line. A reader that skips the end of the line before them skips also
the empty line if there are none. -/
def fieldsText : List Field → Bytes
  | [] => []
  | fs => lines (fs.map Field.line) ++ crlf

def headText (line : Bytes) (fs : List Field) : Bytes := lines (line :: fs.map Field.line) ++ crlf

/-- What is read of the fields, with what comes after each. -/
def parsedFields : List Field → List (MgStr × MgStr)
  | [] => []
  | f :: fs =>
    (⟨f.line ++ crlf ++ lines (fs.map Field.line) ++ crlf, f.name.length⟩,
      ⟨f.value ++ crlf ++ lines (fs.map Field.line) ++ crlf, f.value.length⟩) :: parsedFields fs

section Tokens

theorem forall_mem_of_all {p : UInt8 → Prop} [DecidablePred p] {s : Bytes}
    (all : s.all (fun ch => decide (p ch)) = true) : ∀ ch ∈ s, p ch := by
  simpa using all

theorem isVisible_iff {ch : UInt8} : isVisible ch = true ↔ isText ch = true ∧ ch ≠ 32 := by
  simp [isVisible]

theorem ne_zero_of_isText {ch : UInt8} (text : isText ch = true) : ch ≠ 0 := by
  rintro rfl
  exact absurd text (by decide)

theorem mgSkip_token {delims token : Bytes} (ds rest : Bytes) (inside : ∀ ch ∈ token, ¬ isDelim delims ch)
    (some_delims : ds ≠ []) (between : ∀ ch ∈ ds, isDelim delims ch = true)
    (beyond : ∀ ch ∈ rest.head?, ¬ isDelim delims ch) :
    mgSkip delims (token ++ ds ++ rest) = (⟨token ++ ds ++ rest, token.length⟩, rest) := by
  obtain ⟨d, ds, rfl⟩ := List.exists_cons_of_ne_nil some_delims
  have stops : isDelim delims d = true := between d List.mem_cons_self
  have goes : ∀ ch ∈ token, (!isDelim delims ch) = true := by simpa using inside
  have taken : (token ++ d :: ds ++ rest).takeWhile (fun ch => !isDelim delims ch) = token := by
    rw [List.append_assoc, List.takeWhile_append_of_pos goes, List.cons_append,
      List.takeWhile_cons_of_neg (by simp [stops]), List.append_nil]
  have dropped : (token ++ d :: ds ++ rest).dropWhile (fun ch => !isDelim delims ch) =
      d :: ds ++ rest := by
    rw [List.append_assoc, List.dropWhile_append_of_pos goes, List.cons_append,
      List.dropWhile_cons_of_neg (by simp [stops])]
  have ended : (d :: ds ++ rest).dropWhile (isDelim delims) = rest := by
    rw [List.dropWhile_append_of_pos between]
    cases rest with
    | nil => rfl
    | cons ch rest => exact List.dropWhile_cons_of_neg (beyond ch rfl)
  rw [mgSkip, taken, dropped, ended]

theorem mgNcasecmp_eq_zero {s2 : Bytes} {n : Nat} (enough : n ≤ s2.length)
    (nonzero : ∀ ch ∈ s2, tolower ch ≠ 0) (s1 : Bytes) :
    mgNcasecmp s1 s2 n = 0 ↔ (s1.take n).map tolower = (s2.take n).map tolower := by
  induction n generalizing s1 s2 with
  | zero => simp [mgNcasecmp]
  | succ n ih =>
    obtain ⟨ch2, s2, rfl⟩ := List.exists_cons_of_length_pos (Nat.lt_of_lt_of_le n.succ_pos enough)
    obtain ⟨first, others⟩ := List.forall_mem_cons.mp nonzero
    have later := ih (Nat.le_of_succ_le_succ enough) others
    have differ (a b : UInt8) : (a.toNat : Int) - b.toNat = 0 ↔ a = b := by
      rw [← UInt8.toNat_inj]
      omega
    cases s1 with
    | nil =>
      have unequal : tolower 0 ≠ tolower ch2 := Ne.symm first
      rw [mgNcasecmp]
      simp only [List.headD_nil, List.headD_cons, differ, unequal, false_and, if_false]
      simp
    | cons ch1 s1 =>
      rw [mgNcasecmp]
      simp only [List.headD_cons, List.tail_cons, differ, List.take_succ_cons, List.map_cons,
        List.cons.injEq]
      by_cases same : tolower ch1 = tolower ch2
      · have present : ch1 ≠ 0 := by
          rintro rfl
          exact first same.symm
        simp only [same, present, ne_eq, not_false_eq_true, and_self, if_true, true_and, later]
      · simp only [same, false_and, if_false, iff_false]
        exact fun zero => same ((differ _ _).mp zero)

theorem mgVcasecmp_eq_zero (word : Bytes) (nonzero : ∀ ch ∈ word, tolower ch ≠ 0)
    (token rest : Bytes) :
    mgVcasecmp ⟨token ++ rest, token.length⟩ word = 0 ↔ token.map tolower = word.map tolower := by
  have compared := mgNcasecmp_eq_zero (Nat.min_le_right token.length word.length) nonzero
    (token ++ rest)
  unfold mgVcasecmp
  constructor
  · intro zero
    simp only at zero
    split at zero
    · rename_i same
      have length : token.length = word.length := by omega
      have equal := compared.mp same
      rwa [length, Nat.min_self, List.take_length, ← length, List.take_left] at equal
    · contradiction
  · intro equal
    have length : token.length = word.length := by
      simpa using congrArg List.length equal
    have same : mgNcasecmp (token ++ rest) word (min token.length word.length) = 0 := by
      rw [compared, length, Nat.min_self, List.take_length, ← length, List.take_left, equal]
    simp only [same, if_true]
    omega

end Tokens

section Fields

theorem Field.isLine (f : Field) : IsLine f.line := by
  refine ⟨by simp [Field.line, f.named], ?_⟩
  intro ch member
  simp only [Field.line, List.mem_append] at member
  rcases member with (inName | between) | inValue
  · exact (isVisible_iff.mp (f.name_visible ch inName).1).1
  · have both : ∀ ch ∈ str ": ", isText ch = true :=
      forall_mem_of_all (by decide)
    exact both ch between
  · exact f.value_text ch inValue

theorem headLenFrom_head {line : Bytes} (isLine : IsLine line) (fs : List Field)
    (rest : Bytes) : headLenFrom 0 (headText line fs ++ rest) = (headText line fs).length := by
  have areLines : ∀ l ∈ fs.map Field.line, IsLine l := by
    intro l member
    obtain ⟨f, _, rfl⟩ := List.mem_map.mp member
    exact f.isLine
  have length := headLenFrom_lines isLine areLines rest 0
  rw [headText, length, List.length_append]
  simp [crlf]

theorem headLenFrom_in_head {line : Bytes} (isLine : IsLine line) (fs : List Field)
    {p rest : Bytes} (part : p ++ rest = headText line fs) (unfinished : rest ≠ []) :
    headLenFrom 0 p = 0 := by
  have whole := headLenFrom_head isLine fs []
  rw [List.append_nil, ← part] at whole
  exact headLenFrom_of_extended unfinished whole

theorem MgStr.trim_text {value : Bytes} (rest : Bytes) (last : ∀ ch ∈ value.getLast?, ch ≠ 32) :
    (⟨value ++ rest, value.length⟩ : MgStr).trim = ⟨value ++ rest, value.length⟩ := by
  have kept : value.rdropWhile (· = 32) = value := by
    rw [List.rdropWhile_eq_self_iff]
    intro nonempty
    have other := last _ (List.getLast?_eq_getLast_of_ne_nil nonempty)
    simpa using other
  simp [MgStr.trim, MgStr.text, kept]

theorem Field.name_inside (f : Field) : ∀ ch ∈ f.name, ¬ isDelim (str ": ") ch := by
  intro ch member
  obtain ⟨visible, colon⟩ := f.name_visible ch member
  obtain ⟨text, blank⟩ := isVisible_iff.mp visible
  have zero := ne_zero_of_isText text
  simp [isDelim, show str ": " = [58, 32] by decide, colon, blank, zero]

theorem text_inside {line : Bytes} (text : ∀ ch ∈ line, isText ch = true) :
    ∀ ch ∈ line, ¬ isDelim (str "\r\n") ch := by
  intro ch member
  obtain ⟨_, feed, carriage⟩ := isText_iff.mp (text ch member)
  have zero := ne_zero_of_isText (text ch member)
  simp [isDelim, show str "\r\n" = [13, 10] by decide, carriage, feed, zero]

/-- The end of the line before the fields is skipped, together with the empty line if there is no
field. -/
theorem fieldsText_skipped (fs : List Field) :
    ∃ ds, ds ≠ [] ∧ (∀ ch ∈ ds, isDelim (str "\r\n") ch = true) ∧
      crlf ++ lines (fs.map Field.line) ++ crlf = ds ++ fieldsText fs ∧
      ∀ ch ∈ (fieldsText fs).head?, ¬ isDelim (str "\r\n") ch := by
  cases fs with
  | nil => exact ⟨crlf ++ crlf, by decide, forall_mem_of_all (by decide), rfl, by simp [fieldsText]⟩
  | cons f fs =>
    refine ⟨crlf, by decide, forall_mem_of_all (by decide), by simp [fieldsText], ?_⟩
    obtain ⟨ch, word, same⟩ := List.exists_cons_of_ne_nil f.isLine.1
    have begins : (fieldsText (f :: fs)).head? = some ch := by
      simp [fieldsText, lines, same]
    rw [begins]
    rintro other ⟨⟩
    exact text_inside f.isLine.2 ch (by rw [same]; exact List.mem_cons_self)

theorem mgHttpParseHeaders_fields (len : Nat) {n : Nat} {fs : List Field} (few : fs.length < n)
    (req : MgHttpMessage) :
    mgHttpParseHeaders len n (fieldsText fs) req =
      (parsedFields fs).foldl (fun req h => req.addHeader len h.1 h.2) req := by
  induction fs generalizing n req with
  | nil =>
    obtain ⟨n, rfl⟩ := Nat.exists_eq_succ_of_ne_zero (Nat.ne_of_gt few)
    rfl
  | cons f fs ih =>
    obtain ⟨n, rfl⟩ := Nat.exists_eq_succ_of_ne_zero (Nat.ne_of_gt (Nat.zero_lt_of_lt few))
    have later := ih (Nat.lt_of_succ_lt_succ few)
    obtain ⟨ds, some_delims, between, split, beyond⟩ := fieldsText_skipped fs
    have key := mgSkip_token (str ": ") (f.value ++ ds ++ fieldsText fs) f.name_inside
      (by decide) (forall_mem_of_all (by decide)) (by
        obtain ⟨ch, word, same⟩ := List.exists_cons_of_ne_nil f.valued
        have begins := f.value_head ch (by rw [same]; rfl)
        have text := f.value_text ch (by rw [same]; exact List.mem_cons_self)
        have zero := ne_zero_of_isText text
        rw [same]
        rintro other ⟨⟩
        simp [isDelim, show str ": " = [58, 32] by decide, begins, zero])
    have value := mgSkip_token ds (fieldsText fs) (text_inside f.value_text) some_delims between beyond
    have text : fieldsText (f :: fs) =
        f.name ++ str ": " ++ (f.value ++ ds ++ fieldsText fs) := by
      rw [List.append_assoc f.value ds, ← split]
      simp [fieldsText, lines, Field.line]
    have whole : f.line ++ crlf ++ lines (fs.map Field.line) ++ crlf =
        f.name ++ str ": " ++ (f.value ++ ds ++ fieldsText fs) := by
      rw [List.append_assoc f.value ds, ← split]
      simp [Field.line]
    have remaining : f.value ++ crlf ++ lines (fs.map Field.line) ++ crlf =
        f.value ++ ds ++ fieldsText fs := by
      rw [List.append_assoc f.value ds, ← split]
      simp
    have trimmed := MgStr.trim_text (ds ++ fieldsText fs) f.value_last
    have present : ¬ (f.name.length = 0 ∨ f.value.length = 0) := by
      simp [f.named, f.valued]
    rw [← List.append_assoc] at trimmed
    rw [text, mgHttpParseHeaders, key]
    simp only [value, trimmed]
    rw [if_neg present, later, parsedFields, List.foldl_cons, whole, remaining]

/-- Only the first characters of the name are looked at. -/
def Field.Counts (f : Field) : Prop := (f.name.take 14).map tolower = str "content-length"

instance (f : Field) : Decidable f.Counts := inferInstanceAs (Decidable (_ = _))

/-- The length that the fields give to the body: the last one counts. -/
def declared : List Field → Option Int
  | [] => none
  | f :: fs => (declared fs).or (if f.Counts then some (to64 f.value) else none)

theorem to64_bounds (s : Bytes) :
    -9223372036854775808 ≤ to64 s ∧ to64 s ≤ 9223372036854775807 := by
  simp only [to64]
  split <;> omega

theorem declared_bounds {fs : List Field} {n : Int} (found : declared fs = some n) :
    -9223372036854775808 ≤ n ∧ n ≤ 9223372036854775807 := by
  induction fs with
  | nil => contradiction
  | cons f fs ih =>
    rw [declared, Option.or_eq_some_iff] at found
    rcases found with later | ⟨_, own⟩
    · exact ih later
    · obtain ⟨_, same⟩ := Option.ite_none_right_eq_some.mp own
      cases same
      exact to64_bounds f.value

theorem declared_eq_none {fs : List Field} : declared fs = none ↔ ∀ f ∈ fs, ¬ f.Counts := by
  induction fs with
  | nil => simp [declared]
  | cons f fs ih =>
    rw [declared, Option.or_eq_none_iff, ih, List.forall_mem_cons, and_comm]
    simp

theorem Field.counts_iff (f : Field) (rest : Bytes) :
    mgNcasecmp (f.line ++ rest) (str "Content-Length") 14 = 0 ↔ f.Counts := by
  rw [mgNcasecmp_eq_zero (by decide) (forall_mem_of_all (by decide))]
  have wanted : ((str "Content-Length").take 14).map tolower = str "content-length" := by decide
  rw [wanted, Field.Counts, Field.line, List.append_assoc, List.append_assoc]
  by_cases long : 14 ≤ f.name.length
  · rw [List.take_append_of_le_length long]
  · have short : f.name.length < 14 := Nat.lt_of_not_le long
    obtain ⟨more, gap⟩ : ∃ more, 14 - f.name.length = more + 1 :=
      ⟨13 - f.name.length, by omega⟩
    rw [List.take_append, List.take_of_length_le (Nat.le_of_lt short), gap]
    constructor
    · -- the colon is not of the word
      intro same
      have colon : (58 : UInt8) ∈ str "content-length" := by
        rw [← same]
        simp [show str ": " = [58, 32] by decide, show tolower 58 = 58 by decide]
      exact absurd colon (by decide)
    · intro same
      have length := congrArg List.length same
      rw [List.length_map, show (str "content-length").length = 14 by decide] at length
      omega

theorem takeWhile_append_of_head {α : Type} {p : α → Bool} {rest : List α}
    (stops : ∀ ch ∈ rest.head?, ¬ p ch) (s : List α) :
    (s ++ rest).takeWhile p = s.takeWhile p := by
  induction s with
  | nil =>
    cases rest with
    | nil => rfl
    | cons ch rest => exact List.takeWhile_cons_of_neg (stops ch rfl)
  | cons ch s ih => rw [List.cons_append, List.takeWhile_cons, List.takeWhile_cons, ih]

theorem scanDigits_append {digit : UInt8 → Option Nat} {rest : Bytes}
    (stops : ∀ ch ∈ rest.head?, digit ch = none) (s : Bytes) :
    scanDigits digit (s ++ rest) = scanDigits digit s := by
  rw [scanDigits, takeWhile_append_of_head (fun ch first => by simp [stops ch first]), scanDigits]

theorem to64_append {ch : UInt8} (solid : isSpace ch = false) (word : Bytes) {rest : Bytes}
    (stops : ∀ ch ∈ rest.head?, decimalDigit ch = none) :
    to64 (ch :: word ++ rest) = to64 (ch :: word) := by
  have kept (s : Bytes) : (ch :: s).dropWhile isSpace = ch :: s :=
    List.dropWhile_cons_of_neg (by simp [solid])
  have sign : scanSign (ch :: (word ++ rest)) =
      ((scanSign (ch :: word)).1, (scanSign (ch :: word)).2 ++ rest) := by
    unfold scanSign
    split <;> simp_all
  simp only [to64, List.cons_append, kept, sign, scanDigits_append stops]

theorem not_isSpace_of_isText {ch : UInt8} (text : isText ch = true) (blank : ch ≠ 32) :
    isSpace ch = false := by
  by_contra space
  simp only [isSpace, blank, Bool.not_eq_false, Bool.or_eq_true, decide_eq_true_eq, false_or,
    Bool.and_eq_true] at space
  have low : ch.toNat ≤ 13 := space.2
  simp only [isText, isPrint, Bool.or_eq_true, Bool.and_eq_true, decide_eq_true_eq] at text
  rcases text with printed | beyond
  · have high : 32 ≤ ch.toNat := printed.1
    omega
  · have high : 128 ≤ ch.toNat := beyond
    omega

theorem Field.to64_value (f : Field) (rest : Bytes) :
    to64 (f.value ++ crlf ++ rest) = to64 f.value := by
  obtain ⟨ch, word, same⟩ := List.exists_cons_of_ne_nil f.valued
  have text := f.value_text ch (by rw [same]; exact List.mem_cons_self)
  have begins := f.value_head ch (by rw [same]; rfl)
  rw [same, List.append_assoc]
  refine to64_append (not_isSpace_of_isText text begins.1) word ?_
  rintro other ⟨⟩
  decide

theorem foldl_addHeader (len : Nat) (fs : List Field) (req : MgHttpMessage) :
    (parsedFields fs).foldl (fun req h => req.addHeader len h.1 h.2) req =
      { req with
        headers := req.headers ++ parsedFields fs
        bodyLen := ((declared fs).map toSize).getD req.bodyLen
        messageLen := ((declared fs).map fun n => toSize (len + toSize n)).getD req.messageLen } := by
  induction fs generalizing req with
  | nil => simp [parsedFields, declared]
  | cons f fs ih =>
    have counts := f.counts_iff (crlf ++ lines (fs.map Field.line) ++ crlf)
    have number := f.to64_value (lines (fs.map Field.line) ++ crlf)
    simp only [← List.append_assoc] at counts number
    rw [parsedFields, List.foldl_cons, ih]
    simp only [MgHttpMessage.addHeader, counts, number, declared]
    by_cases own : f.Counts
    · simp only [own, if_true, List.append_assoc, List.singleton_append]
      cases declared fs <;> simp
    · simp only [own, if_false, List.append_assoc, List.singleton_append]
      cases declared fs <;> simp

theorem find_parsedFields {name : Bytes} (nonzero : ∀ ch ∈ name, tolower ch ≠ 0) (fs : List Field) :
    (((parsedFields fs).find? fun h =>
      h.1.len = name.length ∧ mgNcasecmp h.1.p name name.length = 0).map fun h => h.2.text) =
    (fs.find? fun f => f.name.map tolower = name.map tolower).map Field.value := by
  induction fs with
  | nil => rfl
  | cons f fs ih =>
    have same : (f.name.length = name.length ∧
        mgNcasecmp (f.line ++ crlf ++ lines (fs.map Field.line) ++ crlf) name name.length = 0) ↔
        f.name.map tolower = name.map tolower := by
      rw [mgNcasecmp_eq_zero (Nat.le_refl _) nonzero, List.take_length]
      constructor
      · rintro ⟨length, taken⟩
        rw [← taken, ← length]
        simp [Field.line]
      · intro equal
        have length : f.name.length = name.length := by
          simpa using congrArg List.length equal
        refine ⟨length, ?_⟩
        rw [← equal, ← length]
        simp [Field.line]
    rw [parsedFields, List.find?_cons, List.find?_cons]
    by_cases named : f.name.map tolower = name.map tolower
    · have text : (⟨f.value ++ crlf ++ lines (fs.map Field.line) ++ crlf, f.value.length⟩ :
          MgStr).text = f.value := by
        simp [MgStr.text]
      simp only [decide_eq_true (same.mpr named), decide_eq_true named, Option.map_some, text]
    · simp only [decide_eq_false (mt same.mp named), decide_eq_false named, ih]

theorem parsedFields_inside {fs : List Field} {h : MgStr × MgStr} (member : h ∈ parsedFields fs) :
    h.2.len ≤ h.2.p.length := by
  induction fs with
  | nil => contradiction
  | cons f fs ih =>
    rcases List.mem_cons.mp member with rfl | later
    · simp only [List.append_assoc, List.length_append]
      exact Nat.le_add_right _ _
    · exact ih later

theorem getHttpHeader_value {hm : MgHttpMessage} {fs : List Field} {f : Field} (name word : Bytes)
    (headers : hm.headers = parsedFields fs) (nonzero : ∀ ch ∈ name ++ word, tolower ch ≠ 0)
    (found : fs.find? (fun f => f.name.map tolower = name.map tolower) = some f) :
    ∃ v, mgGetHttpHeader hm name = some v ∧
      (mgVcasecmp v word = 0 ↔ f.value.map tolower = word.map tolower) := by
  obtain ⟨nameOk, wordOk⟩ := List.forall_mem_append.mp nonzero
  have text := find_parsedFields nameOk fs
  rw [found, Option.map_some, ← headers] at text
  obtain ⟨h, looked, same⟩ := Option.map_eq_some_iff.mp text
  have member := List.mem_of_find?_eq_some looked
  rw [headers] at member
  have inside := parsedFields_inside member
  have whole : h.2 = ⟨h.2.text ++ h.2.p.drop h.2.len, h.2.text.length⟩ := by
    rw [MgStr.text, List.take_append_drop, List.length_take, Nat.min_eq_left inside]
  refine ⟨h.2, by rw [mgGetHttpHeader, looked, Option.map_some], ?_⟩
  rw [whole, mgVcasecmp_eq_zero word wordOk, same]

theorem getHttpHeader_none {hm : MgHttpMessage} {fs : List Field} (name : Bytes)
    (headers : hm.headers = parsedFields fs) (nonzero : ∀ ch ∈ name, tolower ch ≠ 0)
    (other : ∀ f ∈ fs, f.name.map tolower ≠ name.map tolower) : mgGetHttpHeader hm name = none := by
  have found := find_parsedFields nonzero fs
  have nothing : fs.find? (fun f => f.name.map tolower = name.map tolower) = none := by
    rw [List.find?_eq_none]
    intro f member
    simpa using other f member
  rw [nothing, Option.map_none, Option.map_eq_none_iff] at found
  rw [mgGetHttpHeader, headers, found, Option.map_none]

end Fields

end HttpAudioServer

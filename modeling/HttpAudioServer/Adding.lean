import HttpAudioServer.System
import Mathlib.Data.List.TakeDrop

/-! The list of files on the page: it is added to the playlist line by line, and the next line is
sent when the last one has been answered. A second click does not wait for the first one. -/
namespace HttpAudioServer

variable {c : Codec}

namespace Adding

/-- White space and line terminators of JavaScript. -/
def isSpace (ch : Char) : Bool :=
  ch.toNat ∈ [9, 10, 11, 12, 13, 32, 160, 5760, 8232, 8233, 8239, 8287, 12288, 65279] ||
    (8192 ≤ ch.toNat && ch.toNat ≤ 8202)

def trim (text : List Char) : List Char :=
  ((text.dropWhile isSpace).reverse.dropWhile isSpace).reverse

/-- A character in a string of `JSON.stringify`. -/
def quote (ch : Char) : List Char :=
  if ch = '"' ∨ ch = '\\' then ['\\', ch]
  else if ch.toNat = 8 then ['\\', 'b']
  else if ch.toNat = 9 then ['\\', 't']
  else if ch.toNat = 10 then ['\\', 'n']
  else if ch.toNat = 12 then ['\\', 'f']
  else if ch.toNat = 13 then ['\\', 'r']
  else if ch.toNat < 32 then
    ['\\', 'u', '0', '0', Nat.digitChar (ch.toNat / 16), Nat.digitChar (ch.toNat % 16)]
  else [ch]

/-- `JSON.stringify({"filename": file})`, as it is sent. -/
def body (file : List Char) : Bytes :=
  str "\x7b\"filename\":\"" ++ (file.flatMap quote).flatMap String.utf8EncodeChar ++ str "\"\x7d"

def request (streamId : Bytes) (file : List Char) : HttpMessage where
  method := str "POST"
  uri := str "/stream/" ++ streamId ++ str "/append"
  body := body file

/-- A request of the page, and whether its answer is on its way. -/
structure Post where
  file : List Char
  answered : Bool
deriving DecidableEq

end Adding

/-- `value` is what is in the text area. -/
structure Adding (c : Codec) where
  value : List Char
  posts : List Adding.Post
  streams : Streams c

namespace Adding

inductive Happening where
  | click
  | serve (n : Nat) (outside : Outside)
  | onload (n : Nat)

def Happening.clicks : Happening → Nat
  | .click => 1
  | .serve _ _ | .onload _ => 0

def addFirst (s : Adding c) : Adding c :=
  match s.value.splitOn '\n' with
  | file :: files =>
    if trim file ≠ [] then { s with
      value := ['\n'].intercalate files
      posts := s.posts ++ [⟨trim file, false⟩] }
    else s
  | [] => s

def step (parse : Bytes → Except Exn Json) (floatText : Rat → Bytes) (streamId : Bytes) (s : Adding c) :
    Happening → Option (Adding c × Unit)
  | .click => some (s.addFirst, ())
  | .serve n outside =>
    match s.posts[n]? with
    | some ⟨file, false⟩ =>
      (serve parse floatText s.streams ⟨request streamId file, outside⟩).map fun (streams, _) =>
        ({ s with streams := streams, posts := s.posts.set n ⟨file, true⟩ }, ())
    | _ => none
  | .onload n =>
    match s.posts[n]? with
    | some ⟨_, true⟩ => some ({ s with posts := s.posts.eraseIdx n }.addFirst, ())
    | _ => none

abbrev run (parse : Bytes → Except Exn Json) (floatText : Rat → Bytes) (streamId : Bytes) :
    Adding c → List Happening → Option (Adding c × List Unit) :=
  Run.run (step parse floatText streamId)

/-- The files of the lines before the first one that is blank. -/
def wanted (value : List Char) : List (List Char) :=
  ((value.splitOn '\n').map trim).takeWhile fun file => !file.isEmpty

section Lines

theorem not_mem_splitOn {value line : List Char} (member : line ∈ value.splitOn '\n') :
    '\n' ∉ line := by
  induction value generalizing line with
  | nil => simp_all
  | cons ch value ih =>
    rw [List.splitOn_cons_eq_if_modifyHead] at member
    split at member
    · rcases List.mem_cons.mp member with rfl | later
      · simp
      · exact ih later
    · rename_i other
      cases lines : value.splitOn '\n' with
      | nil => simp [lines] at member
      | cons head tail =>
        simp only [lines, List.modifyHead_cons, List.mem_cons] at member
        rcases member with rfl | later
        · have clean := ih (lines ▸ List.mem_cons_self)
          simp only [List.mem_cons, not_or]
          exact ⟨fun same => other (beq_iff_eq.mpr same.symm), clean⟩
        · exact ih (lines ▸ List.mem_cons_of_mem _ later)

/-- `files.join("\n")` is split into the same lines again, or is empty. -/
theorem wanted_join {lines : List (List Char)} (clean : ∀ line ∈ lines, '\n' ∉ line) :
    wanted (['\n'].intercalate lines) = (lines.map trim).takeWhile fun file => !file.isEmpty := by
  by_cases nothing : lines = []
  · subst nothing
    rfl
  · rw [wanted, List.splitOn_intercalate _ clean nothing]

theorem addFirst_none {s : Adding c} (nothing : wanted s.value = []) : s.addFirst = s := by
  unfold addFirst
  unfold wanted at nothing
  split
  · rename_i file files lines
    split
    · rename_i some_file
      simp [lines, some_file] at nothing
    · rfl
  · rfl

theorem addFirst_some {s : Adding c} {file : List Char} {files : List (List Char)}
    (first : wanted s.value = file :: files) :
    ∃ value, s.addFirst = { s with value := value, posts := s.posts ++ [⟨file, false⟩] } ∧
      wanted value = files := by
  have clean : ∀ line ∈ s.value.splitOn '\n', '\n' ∉ line := fun _ => not_mem_splitOn
  unfold wanted at first
  unfold addFirst
  cases lines : s.value.splitOn '\n' with
  | nil => simp [lines] at first
  | cons line rest =>
    rw [lines, List.map_cons] at first
    by_cases blank : trim line = []
    · simp [blank] at first
    · rw [List.takeWhile_cons_of_pos (by simpa using blank)] at first
      obtain ⟨rfl, later⟩ := List.cons.inj first
      refine ⟨['\n'].intercalate rest, by simp [blank], ?_⟩
      rw [wanted_join fun line member => clean line (lines ▸ List.mem_cons_of_mem _ member)]
      exact later

end Lines

def unanswered (posts : List Post) : List (List Char) :=
  (posts.filter fun post => !post.answered).map Post.file

def entry (file : List Char) : Entry where
  filename := file.flatMap String.utf8EncodeChar
  offs := 0

/-- The state after so many clicks: `taken` are the files that were sent, and `handled` those that
the server has appended. -/
structure Adds (streamId : Bytes) (start : Adding c) (stream : Stream c) (clicks : Nat) (s : Adding c)
    (taken handled : List (List Char)) : Prop where
  split : taken ++ wanted s.value = wanted start.value
  sent : (handled ++ unanswered s.posts).Perm taken
  stored : s.streams = Function.update start.streams streamId
    (some { stream with decoders := stream.decoders ++ handled.map entry })
  waits : s.posts.length ≤ clicks
  goes : s.posts.length < clicks → wanted s.value = []
  single : clicks ≤ 1 → handled ++ unanswered s.posts = taken

def clicksOf (happenings : List Happening) : Nat := (happenings.map Happening.clicks).sum

section Run

variable {parse : Bytes → Except Exn Json} {floatText : Rat → Bytes} {streamId : Bytes}
  {start s t : Adding c} {stream : Stream c} {clicks : Nat} {taken handled : List (List Char)}

theorem request_asks (streamId : Bytes) (file : List Char) :
    (request streamId file).Asks streamId .append := by
  have last : str "/append" = str "/" ++ Action.append.text := by decide
  exact ⟨rfl, by rw [request, last, streamUri, List.append_assoc, List.append_assoc, List.append_assoc]⟩

theorem serve_request (floatText : Rat → Bytes) (outside : Outside) {streams : Streams c}
    {file : List Char} (isId : IsStreamId streamId) (live : streams streamId = some stream)
    (reads : parse (body file) = .ok (.object [(str "filename",
      .string (file.flatMap String.utf8EncodeChar))])) :
    ∃ sent, serve parse floatText streams ⟨request streamId file, outside⟩ =
      some (Function.update streams streamId
        (some (stream.append (file.flatMap String.utf8EncodeChar))), sent) := by
  have handles : Handles parse floatText outside.media streamId (body file) .append (some stream) _ _ :=
    .appends reads (by rfl) (by rfl)
  exact ⟨_, (answers_asks isId (request_asks streamId file) (live.symm ▸ handles)).serve⟩

theorem split_at {posts : List Post} {n : Nat} {post : Post} (there : posts[n]? = some post) :
    ∃ before after, posts = before ++ post :: after ∧ posts.eraseIdx n = before ++ after ∧
      ∀ post', posts.set n post' = before ++ post' :: after := by
  obtain ⟨within, rfl⟩ := List.getElem?_eq_some_iff.mp there
  refine ⟨posts.take n, posts.drop (n + 1), ?_, List.eraseIdx_eq_take_drop_succ posts n, fun post' => ?_⟩
  · rw [List.cons_getElem_drop_succ, List.take_append_drop]
  · rw [List.set_eq_take_append_cons_drop, if_pos within]

theorem unanswered_append (before after : List Post) :
    unanswered (before ++ after) = unanswered before ++ unanswered after := by
  simp [unanswered]

theorem Adds.addFirst (split : taken ++ wanted s.value = wanted start.value)
    (sent : (handled ++ unanswered s.posts).Perm taken)
    (stored : s.streams = Function.update start.streams streamId
      (some { stream with decoders := stream.decoders ++ handled.map entry }))
    (waits : s.posts.length < clicks) (goes : s.posts.length + 1 < clicks → wanted s.value = [])
    (single : clicks ≤ 1 → handled ++ unanswered s.posts = taken) :
    ∃ taken, Adds streamId start stream clicks s.addFirst taken handled := by
  cases first : wanted s.value with
  | nil =>
    rw [addFirst_none first]
    exact ⟨taken, split, sent, stored, waits.le, fun _ => first, single⟩
  | cons file files =>
    obtain ⟨value, added, later⟩ := addFirst_some first
    rw [added]
    have appended : unanswered (s.posts ++ [⟨file, false⟩]) = unanswered s.posts ++ [file] :=
      unanswered_append _ _
    refine ⟨taken ++ [file], ?_, ?_, stored, ?_, fun more => ?_, fun one => ?_⟩
    · simp only [later, ← split, first, List.append_assoc, List.singleton_append]
    · rw [appended, ← List.append_assoc]
      exact sent.append_right [file]
    · rw [List.length_append, List.length_singleton]
      exact waits
    · rw [goes (by simpa using more)] at first
      cases first
    · rw [appended, ← List.append_assoc, single one]

theorem Adds.step (isId : IsStreamId streamId)
    (reads : ∀ file ∈ wanted start.value, parse (body file) =
      .ok (.object [(str "filename", .string (file.flatMap String.utf8EncodeChar))]))
    (adds : Adds streamId start stream clicks s taken handled) {e : Happening}
    (stepped : s.step parse floatText streamId e = some (t, ())) :
    ∃ taken handled, Adds streamId start stream (clicks + e.clicks) t taken handled := by
  cases e with
  | click =>
    cases stepped
    have after : ∃ taken, Adds streamId start stream (clicks + 1) s.addFirst taken handled :=
      Adds.addFirst adds.split adds.sent adds.stored (Nat.lt_succ_of_le adds.waits)
        (fun more => adds.goes (Nat.lt_of_succ_lt_succ more)) (fun one => adds.single (by omega))
    obtain ⟨taken, after⟩ := after
    exact ⟨taken, handled, after⟩
  | serve n outside =>
    simp only [Adding.step] at stepped
    split at stepped
    · rename_i file there
      obtain ⟨before, after, posts, _, set⟩ := split_at there
      have waiting : unanswered s.posts = unanswered before ++ file :: unanswered after := by
        simp [posts, unanswered]
      have answered : unanswered (s.posts.set n ⟨file, true⟩) = unanswered before ++ unanswered after := by
        simp [set, unanswered]
      have member : file ∈ wanted start.value := by
        have inside : file ∈ handled ++ unanswered s.posts := by simp [waiting]
        rw [← adds.split]
        exact List.mem_append_left _ (adds.sent.mem_iff.mp inside)
      have live : s.streams streamId = some { stream with
          decoders := stream.decoders ++ handled.map entry } := by
        simp [adds.stored]
      obtain ⟨sent, served⟩ := serve_request floatText outside isId live (reads file member)
      rw [served] at stepped
      cases stepped
      refine ⟨taken, handled ++ [file], adds.split, ?_, ?_, ?_, ?_, fun one => ?_⟩
      · have order := adds.sent
        rw [waiting] at order
        rw [answered, List.append_assoc]
        have moved : (file :: (unanswered before ++ unanswered after)).Perm
            (unanswered before ++ file :: unanswered after) := List.perm_middle.symm
        exact (moved.append_left handled).trans order
      · simp [adds.stored, Stream.append, entry]
      · rw [List.length_set]
        exact adds.waits
      · rw [List.length_set]
        exact adds.goes
      · have alone : before = [] ∧ after = [] := by
          have waits := adds.waits
          simp only [posts, List.length_append, List.length_cons, Happening.clicks] at waits one
          exact ⟨List.length_eq_zero_iff.mp (by omega), List.length_eq_zero_iff.mp (by omega)⟩
        have single := adds.single one
        rw [waiting] at single
        rw [answered, ← single]
        simp [alone, unanswered]
    · cases stepped
  | onload n =>
    simp only [Adding.step] at stepped
    split at stepped
    · rename_i file there
      obtain ⟨before, after, posts, erased, _⟩ := split_at there
      have same : unanswered (s.posts.eraseIdx n) = unanswered s.posts := by
        rw [erased, posts]
        simp [unanswered]
      have shorter : (s.posts.eraseIdx n).length + 1 = s.posts.length := by
        rw [erased, posts]
        simp
        omega
      cases stepped
      have waits := adds.waits
      have after : ∃ taken, Adds streamId start stream clicks
          (Adding.addFirst { s with posts := s.posts.eraseIdx n }) taken handled :=
        Adds.addFirst adds.split (same.symm ▸ adds.sent) adds.stored (by
            simp only
            omega)
          (fun more => adds.goes (by
            simp only at more
            omega))
          (fun one => by rw [same, adds.single one])
      obtain ⟨taken, after⟩ := after
      exact ⟨taken, handled, after⟩
    · cases stepped

/-- However clicks, requests and answers are interleaved: what the server has appended and what is
on its way are the files of the first lines, each once. After one click they are in order. When
nothing is on its way any more, these are all files before the first line that is blank. -/
theorem files_added (isId : IsStreamId streamId) {value : List Char} {streams : Streams c}
    (live : streams streamId = some stream)
    (reads : ∀ file ∈ wanted value, parse (body file) =
      .ok (.object [(str "filename", .string (file.flatMap String.utf8EncodeChar))]))
    {happenings : List Happening} {us : List Unit}
    (ran : run parse floatText streamId ⟨value, [], streams⟩ happenings = some (s, us)) :
    ∃ taken handled, taken ++ wanted s.value = wanted value ∧
      (handled ++ unanswered s.posts).Perm taken ∧
      (clicksOf happenings ≤ 1 → handled ++ unanswered s.posts = taken) ∧
      (0 < clicksOf happenings → s.posts = [] → handled.Perm (wanted value)) ∧
      s.streams = Function.update streams streamId
        (some { stream with decoders := stream.decoders ++ handled.map entry }) := by
  have initial : Adds streamId ⟨value, [], streams⟩ stream (clicksOf []) ⟨value, [], streams⟩ [] [] := {
    split := rfl
    sent := .refl _
    stored := by simp [← live]
    waits := Nat.le_refl 0
    goes := by simp [clicksOf]
    single := fun _ => rfl }
  obtain ⟨taken, handled, adds⟩ := Run.run_keeps (fun happenings _ (s : Adding c) =>
    ∃ taken handled, Adds streamId ⟨value, [], streams⟩ stream (clicksOf happenings) s taken handled)
    ⟨[], [], initial⟩
    (fun before _ _ e _ _ ⟨_, _, adds⟩ stepped => by
      have total : clicksOf (before ++ [e]) = clicksOf before + e.clicks := by simp [clicksOf]
      rw [total]
      exact adds.step isId reads stepped) ran
  refine ⟨taken, handled, adds.split, adds.sent, adds.single, fun clicked done => ?_, adds.stored⟩
  have nothing := adds.goes (by simpa [done] using clicked)
  have order := adds.sent
  have split := adds.split
  rw [nothing, List.append_nil] at split
  rw [split, done] at order
  simpa [unanswered] using order

end Run

def threeLines : List Char := "a.mp3\n b.mp3\n\nc.mp3".toList

def parseTwo (bytes : Bytes) : Except Exn Json :=
  if bytes = body "a.mp3".toList then .ok (.object [(str "filename", .string (str "a.mp3"))])
  else if bytes = body "b.mp3".toList then .ok (.object [(str "filename", .string (str "b.mp3"))])
  else .error ⟨"parse error"⟩

def added : List Happening :=
  [.click, .serve 0 ⟨none, idOfA, .ofFiles fun _ _ => []⟩, .onload 0,
    .serve 0 ⟨none, idOfA, .ofFiles fun _ _ => []⟩, .onload 0]

theorem files_added_threeLines :
    ∃ s us, run parseTwo (fun _ => str "-1") idOfA.text
        ⟨threeLines, [], Function.update noStreams idOfA.text (some (.create Codec.plain 196000))⟩ added =
        some (s, us) ∧ s.posts = [] ∧
      ∃ handled : List (List Char), handled.Perm ["a.mp3".toList, "b.mp3".toList] ∧
        (s.streams idOfA.text).map (fun t => t.decoders) = some (handled.map entry) := by
  have evaluated : (run parseTwo (fun _ => str "-1") idOfA.text
      ⟨threeLines, [], Function.update noStreams idOfA.text (some (.create Codec.plain 196000))⟩
      added).map (fun (r : Adding Codec.plain × List Unit) => r.1.posts) = some [] := by
    decide +kernel
  obtain ⟨⟨s, us⟩, ran, done⟩ := Option.map_eq_some_iff.mp evaluated
  have lines : wanted threeLines = ["a.mp3".toList, "b.mp3".toList] := by decide
  have reads : ∀ file ∈ wanted threeLines, parseTwo (body file) =
      .ok (.object [(str "filename", .string (file.flatMap String.utf8EncodeChar))]) := by
    rw [lines]
    simp only [List.forall_mem_cons]
    refine ⟨by rfl, by rfl, by simp⟩
  obtain ⟨_, handled, _, _, _, all, stored⟩ := files_added idOfA.isStreamId (by simp; rfl) reads ran
  refine ⟨s, us, ran, done, handled, lines ▸ all (by decide) done, ?_⟩
  simp [stored, Stream.create]

end Adding

end HttpAudioServer

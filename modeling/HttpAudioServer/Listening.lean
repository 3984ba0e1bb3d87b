import HttpAudioServer.Titles
import Mathlib.Algebra.Order.Field.Rat
import Mathlib.Tactic.Linarith

/-! The page while it plays: requests, answers, timers and the user, in any order, with the stream
that it plays. Each click on the play button starts another loop of `next_chunk`. -/
namespace HttpAudioServer

open Javascript

/-- What the loop of one click waits for. An answer that is on its way is known, and so is one that
has been lost to an exception. -/
inductive Await where
  | request
  | answer (reply : Stream.Reply)
  | timer
  | over
  | threw (reply : Stream.Reply)

/-- An answer that is loaded goes to the callback of `next_chunk`. -/
def Page.takes (floatText : Rat → Bytes) (page : Page) (reply : Stream.Reply) : Option Page :=
  (reply.loaded floatText).bind page.nextChunk

/-- What `sourceOpen` has. The source buffer is `updating` until it has taken what was appended, and
its media source is detached when the audio element gets another one. -/
structure Player where
  page : Page := {}
  updating : Bool := false
  attached : Bool := true
  awaits : Await := .request

/-- `opening`: the button has been clicked, and the media source is not open yet. `furthest`,
`heard` and `shown` are not in the code: the largest play position so far, and since the media
source was opened the answers that were read and the tracks that were shown. -/
structure Listening (c : Codec) where
  server : Stream c
  players : Nat → Option Player
  opening : Bool
  currentTime : Rat
  metadata : List Value
  furthest : Rat
  heard : List Stream.Reply
  shown : List Value

inductive Happening where
  | click
  | sourceOpen (i : Nat)
  | append (filename : Bytes)
  | serve (i : Nat) (media : Media)
  | onload (i : Nat)
  | updateend (i : Nat)
  | timeout (i : Nat)
  | plays (currentTime : Rat)
  | updateInfo

abbrev Seen := Option (Nat × Stream.Reply)

namespace Listening

variable {c : Codec}

def start (server : Stream c) : Listening c where
  server := server
  players _ := none
  opening := false
  currentTime := 0
  metadata := []
  furthest := 0
  heard := []
  shown := []

def checkNextChunk (bufferTs currentTime : Rat) : Await :=
  if bufferTs - currentTime < 10 then .request else .timer

def metaSegment (buf : Bytes) : Option Bytes :=
  (parseSegments buf).bind fun segments => segments.lookup (str "meta")

/-- What is added to the metadata of the page for an answer. If something is thrown, nothing is. -/
def itemsOf (floatText : Rat → Bytes) (engine : Engine) (reply : Stream.Reply) : List Value :=
  (((reply.loaded floatText).bind metaSegment).bind (pageMetadata engine)).getD []

/-- `metadata[0]["start"]`, if it is a number. -/
def startOf (engine : Engine) (data : Value) : Option Rat :=
  match data.get "start" with
  | some (.number literal) => some (engine.number literal)
  | _ => none

def set (s : Listening c) (i : Nat) (p : Player) : Listening c :=
  { s with players := Function.update s.players i (some p) }

/-- The callback of a request. A source buffer that is updating, or is no longer there, throws. -/
def onload (floatText : Rat → Bytes) (engine : Engine) (s : Listening c) (i : Nat) (p : Player)
    (reply : Stream.Reply) : Option (Listening c) :=
  (p.page.takes floatText reply).map fun page =>
    if page.asking && (p.updating || !p.attached) then s.set i { p with awaits := .threw reply }
    else
      let s := { s with
        metadata := s.metadata ++ itemsOf floatText engine reply
        heard := s.heard ++ [reply] }
      if page.asking then
        s.set i { p with
          page := page
          updating := true
          awaits := checkNextChunk page.bufferTs s.currentTime }
      else s.set i { p with page := page, awaits := .over }

def step (floatText : Rat → Bytes) (engine : Engine) (s : Listening c) :
    Happening → Option (Listening c × Seen)
  | .click => some ({ s with
      players := fun j => (s.players j).map fun p => { p with attached := false }
      opening := true }, none)
  | .sourceOpen i =>
    if s.opening = true ∧ s.players i = none then
      some ({ s.set i {} with opening := false, metadata := [], heard := [], shown := [] }, none)
    else none
  | .append filename => some ({ s with server := s.server.append filename }, none)
  | .serve i media =>
    match s.players i with
    | some ⟨page, updating, attached, .request⟩ =>
      (s.server.step (.advance media 240000)).map fun (server, reply) =>
        ({ s with server := server }.set i ⟨page, updating, attached, .answer reply⟩,
          some (i, reply))
    | _ => none
  | .onload i =>
    match s.players i with
    | some ⟨page, updating, attached, .answer reply⟩ =>
      (s.onload floatText engine i ⟨page, updating, attached, .answer reply⟩ reply).map
        fun s => (s, none)
    | _ => none
  | .updateend i =>
    match s.players i with
    | some p => if p.updating then some (s.set i { p with updating := false }, none) else none
    | none => none
  | .timeout i =>
    match s.players i with
    | some ⟨page, updating, attached, .timer⟩ => some (s.set i
        ⟨page, updating, attached, checkNextChunk page.bufferTs s.currentTime⟩, none)
    | _ => none
  | .plays currentTime =>
    some ({ s with currentTime := currentTime, furthest := max s.furthest currentTime }, none)
  | .updateInfo =>
    match s.metadata with
    | data :: metadata =>
      if (startOf engine data).any fun start => decide (start ≤ s.currentTime) then
        some ({ s with metadata := metadata, shown := s.shown ++ [data] }, none)
      else some (s, none)
    | [] => some (s, none)

abbrev run (floatText : Rat → Bytes) (engine : Engine) :
    Listening c → List Happening → Option (Listening c × List Seen) := Run.run (step floatText engine)

inductive Goes (floatText : Rat → Bytes) (engine : Engine) (s : Listening c) :
    Happening → Listening c → Seen → Prop where
  | click : Goes floatText engine s .click { s with
      players := fun j => (s.players j).map fun p => { p with attached := false }
      opening := true } none
  | sourceOpen {i : Nat} (opening : s.opening = true) (fresh : s.players i = none) :
      Goes floatText engine s (.sourceOpen i)
        { s.set i {} with opening := false, metadata := [], heard := [], shown := [] } none
  | append (filename : Bytes) :
      Goes floatText engine s (.append filename) { s with server := s.server.append filename } none
  | serve {i : Nat} {p : Player} {media : Media} {server : Stream c} {reply : Stream.Reply}
      (player : s.players i = some p) (awaits : p.awaits = .request)
      (served : s.server.step (.advance media 240000) = some (server, reply)) :
      Goes floatText engine s (.serve i media)
        ({ s with server := server }.set i { p with awaits := .answer reply }) (some (i, reply))
  | threw {i : Nat} {p : Player} {reply : Stream.Reply} {page : Page}
      (player : s.players i = some p) (awaits : p.awaits = .answer reply)
      (read : p.page.takes floatText reply = some page) (asking : page.asking = true)
      (refused : p.updating = true ∨ p.attached = false) :
      Goes floatText engine s (.onload i) (s.set i { p with awaits := .threw reply }) none
  | appends {i : Nat} {p : Player} {reply : Stream.Reply} {page : Page}
      (player : s.players i = some p) (awaits : p.awaits = .answer reply)
      (read : p.page.takes floatText reply = some page) (asking : page.asking = true) :
      Goes floatText engine s (.onload i) ({ s with
        metadata := s.metadata ++ itemsOf floatText engine reply
        heard := s.heard ++ [reply] }.set i { p with
          page := page
          updating := true
          awaits := checkNextChunk page.bufferTs s.currentTime }) none
  | ends {i : Nat} {p : Player} {reply : Stream.Reply} {page : Page}
      (player : s.players i = some p) (awaits : p.awaits = .answer reply)
      (read : p.page.takes floatText reply = some page) (stopped : page.asking = false) :
      Goes floatText engine s (.onload i) ({ s with
        metadata := s.metadata ++ itemsOf floatText engine reply
        heard := s.heard ++ [reply] }.set i { p with
          page := page
          awaits := .over }) none
  | updateend {i : Nat} {p : Player} (player : s.players i = some p) (updating : p.updating = true) :
      Goes floatText engine s (.updateend i) (s.set i { p with updating := false }) none
  | timeout {i : Nat} {p : Player} (player : s.players i = some p) (awaits : p.awaits = .timer) :
      Goes floatText engine s (.timeout i)
        (s.set i { p with awaits := checkNextChunk p.page.bufferTs s.currentTime }) none
  | plays (currentTime : Rat) : Goes floatText engine s (.plays currentTime)
      { s with currentTime := currentTime, furthest := max s.furthest currentTime } none
  | shows {data : Value} {metadata : List Value} {start : Rat} (there : s.metadata = data :: metadata)
      (starts : startOf engine data = some start) (past : start ≤ s.currentTime) :
      Goes floatText engine s .updateInfo
        { s with metadata := metadata, shown := s.shown ++ [data] } none
  | idle : Goes floatText engine s .updateInfo s none

theorem step_goes {floatText : Rat → Bytes} {engine : Engine} {s t : Listening c}
    {e : Happening} {seen : Seen} (stepped : s.step floatText engine e = some (t, seen)) :
    Goes floatText engine s e t seen := by
  cases e with
  | click =>
    cases stepped
    exact .click
  | sourceOpen i =>
    simp only [step] at stepped
    split at stepped
    · rename_i able
      cases stepped
      exact .sourceOpen able.1 able.2
    · cases stepped
  | append filename =>
    cases stepped
    exact .append filename
  | serve i media =>
    simp only [step] at stepped
    split at stepped
    · rename_i page updating attached player
      obtain ⟨⟨server, reply⟩, served, same⟩ := Option.map_eq_some_iff.mp stepped
      cases same
      exact .serve player rfl served
    · cases stepped
  | onload i =>
    simp only [step] at stepped
    split at stepped
    · rename_i page updating attached reply player
      obtain ⟨u, loaded, same⟩ := Option.map_eq_some_iff.mp stepped
      cases same
      obtain ⟨next, read, rfl⟩ := Option.map_eq_some_iff.mp loaded
      split
      · rename_i refused
        simp only [Bool.and_eq_true, Bool.or_eq_true, Bool.not_eq_true'] at refused
        exact .threw player rfl read refused.1 refused.2
      · split
        · rename_i asking
          exact .appends player rfl read asking
        · rename_i stopped
          exact .ends player rfl read (by simpa using stopped)
    · cases stepped
  | updateend i =>
    simp only [step] at stepped
    split at stepped
    · rename_i p player
      split at stepped
      · rename_i updating
        cases stepped
        exact .updateend player updating
      · cases stepped
    · cases stepped
  | timeout i =>
    simp only [step] at stepped
    split at stepped
    · rename_i page updating attached player
      cases stepped
      exact .timeout player rfl
    · cases stepped
  | plays currentTime =>
    cases stepped
    exact .plays currentTime
  | updateInfo =>
    simp only [step] at stepped
    split at stepped
    · rename_i data metadata there
      split at stepped
      · rename_i due
        obtain ⟨start, starts, past⟩ := (Option.any_eq_true _ _).mp due
        cases stepped
        exact .shows there starts (of_decide_eq_true past)
      · cases stepped
        exact .idle
    · cases stepped
      exact .idle

def served (i : Nat) (bs : List Seen) : List Stream.Reply :=
  bs.filterMap fun b => b.bind fun (j, reply) => if j = i then some reply else none

@[simp] theorem served_nil (i : Nat) : served i [] = [] := rfl

@[simp] theorem served_none (i : Nat) (bs : List Seen) : served i (bs ++ [none]) = served i bs := by
  simp [served]

@[simp] theorem served_self (i : Nat) (bs : List Seen) (reply : Stream.Reply) :
    served i (bs ++ [some (i, reply)]) = served i bs ++ [reply] := by
  simp [served]

theorem served_other {i j : Nat} (other : j ≠ i) (bs : List Seen) (reply : Stream.Reply) :
    served j (bs ++ [some (i, reply)]) = served j bs := by
  simp [served, other.symm]

end Listening

def Await.undelivered : Await → List Stream.Reply
  | .answer reply | .threw reply => [reply]
  | .request | .timer | .over => []

/-- The five seconds of an answer that is not appended. -/
def Await.lag : Await → Rat
  | .request | .timer => 0
  | .answer _ | .threw _ | .over => 5

/-- What a player has got of the answers to it, and how far it is ahead. -/
structure Player.Kept (floatText : Rat → Bytes) (mine : List Stream.Reply) (furthest : Rat)
    (p : Player) : Prop where
  given : ∃ given, mine = given ++ p.awaits.undelivered ∧
    given.foldlM (Page.takes floatText) {} = some p.page
  count : 5 * (mine.length : Rat) = p.page.bufferTs + p.awaits.lag
  near : p.awaits = .request ∨ (∃ reply, p.awaits = .answer reply) → p.page.bufferTs < furthest + 10
  ahead : p.page.bufferTs + p.awaits.lag < furthest + 15

theorem Page.bufferTs_takes {floatText : Rat → Bytes} {reply : Stream.Reply} {page next : Page}
    (read : page.takes floatText reply = some next) :
    next.bufferTs = page.bufferTs + if next.asking then 5 else 0 := by
  obtain ⟨buf, _, taken⟩ := Option.bind_eq_some_iff.mp read
  obtain ⟨segments, _, rfl⟩ := Option.map_eq_some_iff.mp taken
  cases segments.lookup (str "data") <;> cases segments.lookup (str "meta") <;> simp

namespace Player.Kept

variable {floatText : Rat → Bytes} {mine : List Stream.Reply} {furthest : Rat} {p : Player}

theorem start (nonneg : 0 ≤ furthest) : Player.Kept floatText [] furthest {} where
  given := ⟨[], rfl, rfl⟩
  count := by simp [Await.lag]
  near _ := by
    show (0 : Rat) < furthest + 10
    linarith
  ahead := by
    show (0 : Rat) + 0 < furthest + 15
    linarith

theorem later {furthest' : Rat} (kept : p.Kept floatText mine furthest) (more : furthest ≤ furthest') :
    p.Kept floatText mine furthest' where
  given := kept.given
  count := kept.count
  near able := (kept.near able).trans_le (by linarith)
  ahead := kept.ahead.trans_le (by linarith)

theorem same {updating attached : Bool} (kept : p.Kept floatText mine furthest) :
    Player.Kept floatText mine furthest { p with updating := updating, attached := attached } :=
  ⟨kept.given, kept.count, kept.near, kept.ahead⟩

theorem served {reply : Stream.Reply} (kept : p.Kept floatText mine furthest)
    (awaits : p.awaits = .request) :
    Player.Kept floatText (mine ++ [reply]) furthest { p with awaits := .answer reply } where
  given := by
    obtain ⟨given, split, read⟩ := kept.given
    exact ⟨given, by simp [split, awaits, Await.undelivered], read⟩
  count := by
    have count := kept.count
    simp only [awaits, Await.lag] at count
    simp only [Await.lag, List.length_append, List.length_singleton, Nat.cast_add, Nat.cast_one]
    linarith
  near _ := kept.near (.inl awaits)
  ahead := by
    have near := kept.near (.inl awaits)
    simp only [Await.lag]
    linarith

theorem threw {reply : Stream.Reply} (kept : p.Kept floatText mine furthest)
    (awaits : p.awaits = .answer reply) :
    Player.Kept floatText mine furthest { p with awaits := .threw reply } where
  given := by simpa [awaits, Await.undelivered] using kept.given
  count := by simpa [awaits, Await.lag] using kept.count
  near able := by simp at able
  ahead := by simpa [awaits, Await.lag] using kept.ahead

theorem read {reply : Stream.Reply} {page : Page} (kept : p.Kept floatText mine furthest)
    (awaits : p.awaits = .answer reply) (read : p.page.takes floatText reply = some page) :
    mine.foldlM (Page.takes floatText) {} = some page := by
  obtain ⟨given, rfl, before⟩ := kept.given
  simp [awaits, Await.undelivered, List.foldlM_append, before, read]

theorem ends {reply : Stream.Reply} {page : Page} (kept : p.Kept floatText mine furthest)
    (awaits : p.awaits = .answer reply) (read : p.page.takes floatText reply = some page)
    (stopped : page.asking = false) :
    Player.Kept floatText mine furthest { p with page := page, awaits := .over } where
  given := ⟨mine, by simp [Await.undelivered], kept.read awaits read⟩
  count := by simpa [awaits, Await.lag, Page.bufferTs_takes read, stopped] using kept.count
  near able := by simp at able
  ahead := by simpa [awaits, Await.lag, Page.bufferTs_takes read, stopped] using kept.ahead

theorem checks {page : Page} {updating : Bool} {currentTime : Rat}
    (given : mine.foldlM (Page.takes floatText) {} = some page)
    (count : 5 * (mine.length : Rat) = page.bufferTs) (ahead : page.bufferTs < furthest + 15)
    (passed : currentTime ≤ furthest) :
    Player.Kept floatText mine furthest { p with
      page := page
      updating := updating
      awaits := Listening.checkNextChunk page.bufferTs currentTime } := by
  unfold Listening.checkNextChunk
  split
  · rename_i soon
    exact ⟨⟨mine, by simp [Await.undelivered], given⟩, by simpa [Await.lag] using count,
      fun _ => by
        simp only
        linarith,
      by simpa [Await.lag] using ahead⟩
  · exact ⟨⟨mine, by simp [Await.undelivered], given⟩, by simpa [Await.lag] using count,
      fun able => by simp at able, by simpa [Await.lag] using ahead⟩

theorem appends {reply : Stream.Reply} {page : Page} {currentTime : Rat}
    (kept : p.Kept floatText mine furthest) (awaits : p.awaits = .answer reply)
    (read : p.page.takes floatText reply = some page) (asking : page.asking = true)
    (passed : currentTime ≤ furthest) :
    Player.Kept floatText mine furthest { p with
      page := page
      updating := true
      awaits := Listening.checkNextChunk page.bufferTs currentTime } := by
  have bufferTs := Page.bufferTs_takes read
  have count := kept.count
  have ahead := kept.ahead
  simp only [asking, if_true] at bufferTs
  simp only [awaits, Await.lag] at count ahead
  exact checks (kept.read awaits read) (by rw [bufferTs, count]) (by rw [bufferTs]; exact ahead) passed

theorem timeout {currentTime : Rat} (kept : p.Kept floatText mine furthest)
    (awaits : p.awaits = .timer) (passed : currentTime ≤ furthest) :
    Player.Kept floatText mine furthest
      { p with awaits := Listening.checkNextChunk p.page.bufferTs currentTime } := by
  obtain ⟨given, split, read⟩ := kept.given
  have count := kept.count
  have ahead := kept.ahead
  simp only [awaits, Await.lag, add_zero] at count ahead
  simp only [awaits, Await.undelivered, List.append_nil] at split
  exact checks (split ▸ read) count ahead passed

end Player.Kept

namespace Listening

variable {c : Codec}

/-- Every player is kept, and none has been answered before it was there. -/
structure Keeps (floatText : Rat → Bytes) (bs : List Seen) (s : Listening c) : Prop where
  kept : ∀ i p, s.players i = some p → p.Kept floatText (served i bs) s.furthest
  fresh : ∀ i, s.players i = none → served i bs = []
  passed : s.currentTime ≤ s.furthest
  nonneg : 0 ≤ s.furthest

section Run

variable {floatText : Rat → Bytes} {engine : Engine} {bs : List Seen} {s t : Listening c}

theorem keeps_start (server : Stream c) : Keeps floatText [] (start server) where
  kept i p player := by simp [start] at player
  fresh _ _ := rfl
  passed := le_rfl
  nonneg := le_rfl

theorem Keeps.set (keeps : Keeps floatText bs s) {i : Nat} {p : Player} (seen : Seen)
    (others : ∀ j, j ≠ i → served j (bs ++ [seen]) = served j bs)
    (kept : p.Kept floatText (served i (bs ++ [seen])) s.furthest) :
    Keeps floatText (bs ++ [seen]) (s.set i p) where
  kept j q player := by
    by_cases same : j = i
    · subst same
      obtain rfl : p = q := by simpa [Listening.set] using player
      exact kept
    · rw [others j same]
      exact keeps.kept j q (by simpa [Listening.set, same] using player)
  fresh j missing := by
    have other : j ≠ i := by
      rintro rfl
      simp [Listening.set] at missing
    rw [others j other]
    exact keeps.fresh j (by simpa [Listening.set, other] using missing)
  passed := keeps.passed
  nonneg := keeps.nonneg

theorem Keeps.update (keeps : Keeps floatText bs s) {i : Nat} {p : Player}
    (kept : p.Kept floatText (served i bs) s.furthest) : Keeps floatText (bs ++ [none]) (s.set i p) :=
  keeps.set none (fun j _ => served_none j bs) (by simpa using kept)

theorem Keeps.rest (keeps : Keeps floatText bs s) (players : t.players = s.players)
    (furthest : t.furthest = s.furthest) (currentTime : t.currentTime = s.currentTime) :
    Keeps floatText bs t where
  kept i p player := furthest ▸ keeps.kept i p (players ▸ player)
  fresh i missing := keeps.fresh i (players ▸ missing)
  passed := by simpa [currentTime, furthest] using keeps.passed
  nonneg := furthest ▸ keeps.nonneg

theorem Keeps.quiet (keeps : Keeps floatText bs s) : Keeps floatText (bs ++ [none]) s where
  kept i p player := by simpa using keeps.kept i p player
  fresh i missing := by simpa using keeps.fresh i missing
  passed := keeps.passed
  nonneg := keeps.nonneg

theorem Keeps.step (keeps : Keeps floatText bs s) {e : Happening} {seen : Seen}
    (goes : Goes floatText engine s e t seen) : Keeps floatText (bs ++ [seen]) t := by
  cases goes with
  | click => exact {
      kept := fun i p player => by
        obtain ⟨q, before, rfl⟩ := Option.map_eq_some_iff.mp player
        rw [served_none]
        exact (keeps.kept i q before).same
      fresh := fun i missing => by
        rw [served_none]
        exact keeps.fresh i (Option.map_eq_none_iff.mp missing)
      passed := keeps.passed
      nonneg := keeps.nonneg }
  | @sourceOpen i opening fresh =>
    refine Keeps.rest (keeps.update (i := i) ?_) rfl rfl rfl
    rw [keeps.fresh i fresh]
    exact .start keeps.nonneg
  | append filename => exact keeps.quiet.rest rfl rfl rfl
  | @serve i p media server reply player awaits serves =>
    have before : Keeps floatText bs { s with server := server } := keeps.rest rfl rfl rfl
    refine before.set _ (fun j other => served_other other bs reply) ?_
    rw [served_self]
    exact (keeps.kept i p player).served awaits
  | @threw i p reply page player awaits read asking refused =>
    exact keeps.update ((keeps.kept i p player).threw awaits)
  | @appends i p reply page player awaits read asking =>
    have before : Keeps floatText bs { s with
        metadata := s.metadata ++ itemsOf floatText engine reply
        heard := s.heard ++ [reply] } := keeps.rest rfl rfl rfl
    exact before.update ((keeps.kept i p player).appends awaits read asking keeps.passed)
  | @ends i p reply page player awaits read stopped =>
    have before : Keeps floatText bs { s with
        metadata := s.metadata ++ itemsOf floatText engine reply
        heard := s.heard ++ [reply] } := keeps.rest rfl rfl rfl
    exact before.update ((keeps.kept i p player).ends awaits read stopped)
  | @updateend i p player updating => exact keeps.update (keeps.kept i p player).same
  | @timeout i p player awaits =>
    exact keeps.update ((keeps.kept i p player).timeout awaits keeps.passed)
  | plays currentTime => exact {
      kept := fun i p player => by
        rw [served_none]
        exact (keeps.kept i p player).later (le_max_left _ _)
      fresh := fun i missing => (served_none i bs).trans (keeps.fresh i missing)
      passed := le_max_right _ _
      nonneg := keeps.nonneg.trans (le_max_left _ _) }
  | shows there starts past => exact keeps.quiet.rest rfl rfl rfl
  | idle => exact keeps.quiet

theorem run_keeps (server : Stream c) {happenings : List Happening}
    (ran : (start server).run floatText engine happenings = some (s, bs)) : Keeps floatText bs s :=
  Run.run_keeps (fun _ => Keeps floatText) (keeps_start server)
    (fun _ _ _ _ _ _ keeps stepped => keeps.step (step_goes stepped)) ran

theorem run_players (server : Stream c) {happenings : List Happening}
    (ran : (start server).run floatText engine happenings = some (s, bs)) {i : Nat}
    (unopened : .sourceOpen i ∉ happenings) : s.players i = none := by
  refine Run.run_keeps (fun happenings _ (s : Listening c) =>
    .sourceOpen i ∉ happenings → s.players i = none) (fun _ => rfl) ?_ ran unopened
  intro before bs s e t seen missing stepped unopened
  simp only [List.mem_append, List.mem_singleton, not_or] at unopened
  have missing := missing unopened.1
  cases step_goes stepped with
  | click => simp [missing]
  | @sourceOpen j opening fresh =>
    have other : i ≠ j := fun same => unopened.2 (congrArg Happening.sourceOpen same)
    simp [Listening.set, Function.update_of_ne other, missing]
  | append | plays | shows | idle => exact missing
  | @serve j p _ _ _ player | @threw j p _ _ player | @appends j p _ _ player
  | @ends j p _ _ player | @updateend j p player | @timeout j p player =>
    have other : i ≠ j := by
      rintro rfl
      rw [missing] at player
      cases player
    simp [Listening.set, Function.update_of_ne other, missing]

/-- No player ever asks for more than fifteen seconds beyond the furthest play position. -/
theorem requests_paced (server : Stream c) {happenings : List Happening}
    (ran : (start server).run floatText engine happenings = some (s, bs)) {i : Nat} {p : Player}
    (player : s.players i = some p) :
    5 * ((served i bs).length : Rat) < s.furthest + 15 ∧
      (p.awaits = .request → p.page.bufferTs < s.furthest + 10) := by
  have kept := (run_keeps server ran).kept i p player
  refine ⟨?_, fun awaits => kept.near (.inl awaits)⟩
  rw [kept.count]
  exact kept.ahead

end Run

def answers (bs : List Seen) : List Stream.Reply := bs.filterMap fun b => b.map Prod.snd

@[simp] theorem answers_none (bs : List Seen) : answers (bs ++ [none]) = answers bs := by
  simp [answers]

@[simp] theorem answers_some (bs : List Seen) (i : Nat) (reply : Stream.Reply) :
    answers (bs ++ [some (i, reply)]) = answers bs ++ [reply] := by
  simp [answers]

theorem answers_of_only {i : Nat} {bs : List Seen} (only : ∀ j, j ≠ i → served j bs = []) :
    answers bs = served i bs := by
  induction bs using List.reverseRec with
  | nil => rfl
  | append_singleton bs b ih =>
    match b with
    | none =>
      simp only [served_none] at only
      simp [ih only]
    | some (k, reply) =>
      have same : k = i := by
        by_contra other
        have nothing := only k other
        simp at nothing
      subst same
      simp [ih fun j other => (served_other other bs reply).symm.trans (only j other)]

section Whole

variable {floatText : Rat → Bytes} {engine : Engine} {bs : List Seen} {s t : Listening c}

/-- What the server has written went into its answers. -/
structure Serves (floatText : Rat → Bytes) (bs : List Seen) (s : Listening c) : Prop where
  ready : s.server.Ready
  dumped : (∀ reply ∈ answers bs, reply.Fits floatText) →
    s.server.encoder.mkvWriter.dumped = ((answers bs).map Stream.Reply.data).flatten

theorem Serves.step (serves : Serves floatText bs s) {e : Happening} {seen : Seen}
    (goes : Goes floatText engine s e t seen) : Serves floatText (bs ++ [seen]) t := by
  have quiet : ∀ {u : Listening c}, u.server = s.server → Serves floatText (bs ++ [none]) u :=
    fun same => ⟨same ▸ serves.ready, by simpa [same] using serves.dumped⟩
  cases goes with
  | append filename =>
    refine ⟨(Stream.Steps.appends filename 0).ready serves.ready, ?_⟩
    rw [answers_none]
    exact serves.dumped
  | @serve i p media server reply player awaits served =>
    obtain ⟨_, _, stepped, steps⟩ := Stream.step_spec serves.ready (.advance media 240000)
    cases served.symm.trans stepped
    refine ⟨steps.ready serves.ready, fun fits => ?_⟩
    simp only [answers_some, List.forall_mem_append, List.forall_mem_singleton] at fits
    have returns : ∀ e, reply ≠ .threw e := by
      rintro e rfl
      exact fits.2
    rw [answers_some, List.map_append, List.flatten_append, ← serves.dumped fits.1]
    simpa [Listening.set] using steps.dumped returns
  | click | sourceOpen | threw | appends | ends | updateend | timeout | plays | shows | idle =>
    exact quiet rfl

theorem run_serves (c : Codec) (bitrate : Nat) {happenings : List Happening} {s : Listening c}
    (ran : (start (Stream.create c bitrate)).run floatText engine happenings = some (s, bs)) :
    Serves floatText bs s :=
  Run.run_keeps (fun _ => Serves floatText)
    ⟨Stream.create_ready bitrate, fun _ => EncoderImpl.create_dumped c 48000 2⟩
    (fun _ _ _ _ _ _ serves stepped => serves.step (step_goes stepped)) ran

theorem sourceBuffer_given {given : List Stream.Reply} {page : Page}
    (read : given.foldlM (Page.takes floatText) {} = some page)
    (fits : ∀ reply ∈ given, reply.Fits floatText) :
    page.sourceBuffer = (given.map Stream.Reply.data).filter fun data => !data.isEmpty := by
  induction given using List.reverseRec generalizing page with
  | nil =>
    cases read
    rfl
  | append_singleton given reply ih =>
    simp only [List.foldlM_append, Option.bind_eq_bind, Option.bind_eq_some_iff] at read
    obtain ⟨before, earlier, last⟩ := read
    simp only [List.foldlM_cons, List.foldlM_nil, bind_pure] at last
    simp only [List.forall_mem_append, List.forall_mem_singleton] at fits
    have buffer := ih earlier fits.1
    rw [List.map_append, List.filter_append, ← buffer]
    cases reply with
    | appended => cases last
    | threw => exact fits.2.elim
    | segments metadata data =>
      obtain ⟨page', answer, buffer'⟩ := Stream.answer_sourceBuffer fits.2 before
      cases last.symm.trans answer
      exact buffer'

theorem fits_served {i : Nat} (fits : ∀ reply ∈ answers bs, reply.Fits floatText) :
    ∀ reply ∈ served i bs, reply.Fits floatText := by
  intro reply member
  obtain ⟨b, inside, found⟩ := List.mem_filterMap.mp member
  obtain ⟨⟨j, reply'⟩, rfl, same⟩ := Option.bind_eq_some_iff.mp found
  refine fits reply (List.mem_filterMap.mpr ⟨_, inside, ?_⟩)
  by_cases here : j = i
  · simpa [here] using same
  · simp [here] at same

/-- However requests, answers, timers, clicks and the play position are interleaved: what the server
has written is in its answers, each player has got the answers to it in order, but for the last one
while it is on its way or if it was lost, and a player that is alone has got all that was written. -/
theorem listening_whole (c : Codec) (bitrate : Nat) {happenings : List Happening} {s : Listening c}
    (ran : (start (Stream.create c bitrate)).run floatText engine happenings = some (s, bs))
    (fits : ∀ reply ∈ answers bs, reply.Fits floatText) :
    s.server.encoder.mkvWriter.dumped = ((answers bs).map Stream.Reply.data).flatten ∧
    ∀ i p, s.players i = some p →
      (∃ given, served i bs = given ++ p.awaits.undelivered ∧
        p.page.sourceBuffer = (given.map Stream.Reply.data).filter fun data => !data.isEmpty) ∧
      ((∀ j, .sourceOpen j ∈ happenings → j = i) → p.page.sourceBuffer.flatten ++
        (p.awaits.undelivered.map Stream.Reply.data).flatten = s.server.encoder.mkvWriter.dumped) := by
  have keeps := run_keeps _ ran
  have dumped := (run_serves c bitrate ran).dumped fits
  refine ⟨dumped, fun i p player => ?_⟩
  obtain ⟨given, split, read⟩ := (keeps.kept i p player).given
  have fits_given : ∀ reply ∈ given, reply.Fits floatText := fun reply member =>
    fits_served fits reply (split ▸ List.mem_append_left _ member)
  have buffer := sourceBuffer_given read fits_given
  refine ⟨⟨given, split, buffer⟩, fun only => ?_⟩
  have all : answers bs = given ++ p.awaits.undelivered :=
    (answers_of_only fun j other => keeps.fresh j (run_players _ ran (mt (only j) other))).trans split
  rw [buffer, Stream.flatten_nonempty, dumped, all, List.map_append, List.flatten_append]

/-- Two files without samples. The first answer is read and the second one is on its way. -/
def playing : List Happening :=
  [.append (str "a"), .append (str "b"), .click, .sourceOpen 0, .serve 0 (.ofFiles fun _ _ => []), .onload 0,
    .serve 0 (.ofFiles fun _ _ => []), .plays 1, .updateInfo]

/-- The track that is still to be shown has started. -/
def nextStarted (s : Listening Codec.plain) : Bool :=
  s.metadata.all fun data => (startOf sampleEngine data).any fun start => decide (start ≤ s.currentTime)

theorem playing_runs :
    ∃ s bs p, (start (Stream.create Codec.plain 196000)).run Stream.minusOne sampleEngine playing =
        some (s, bs) ∧ s.players 0 = some p ∧ (∀ reply ∈ answers bs, reply.Fits Stream.minusOne) ∧
      (served 0 bs).length = 2 ∧ s.shown.length = 1 ∧ s.metadata.length = 1 ∧
      s.server.encoder.mkvWriter.dumped ≠ [] ∧ nextStarted s = true := by
  have evaluated : ((start (Stream.create Codec.plain 196000)).run Stream.minusOne sampleEngine
      playing).map (fun (r : Listening Codec.plain × List Seen) => ((r.1.players 0).isSome,
        decide (∀ reply ∈ answers r.2, reply.Fits Stream.minusOne), (served 0 r.2).length,
        r.1.shown.length, r.1.metadata.length,
        !r.1.server.encoder.mkvWriter.dumped.isEmpty && nextStarted r.1)) =
      some (true, true, 2, 1, 1, true) := by
    decide +kernel
  obtain ⟨⟨s, bs⟩, ran, same⟩ := Option.map_eq_some_iff.mp evaluated
  simp only [Prod.mk.injEq, decide_eq_true_eq, Bool.and_eq_true, Bool.not_eq_true',
    List.isEmpty_eq_false_iff] at same
  obtain ⟨p, player⟩ := Option.isSome_iff_exists.mp same.1
  exact ⟨s, bs, p, ran, player, same.2.1, same.2.2.1, same.2.2.2⟩

theorem requests_paced_playing :
    ∃ s bs, (start (Stream.create Codec.plain 196000)).run Stream.minusOne sampleEngine playing =
      some (s, bs) ∧ (served 0 bs).length = 2 ∧ 5 * ((2 : Nat) : Rat) < s.furthest + 15 := by
  obtain ⟨s, bs, p, ran, player, _, two, _⟩ := playing_runs
  exact ⟨s, bs, ran, two, two ▸ (requests_paced _ ran player).1⟩

theorem listening_whole_playing :
    ∃ s bs p, (start (Stream.create Codec.plain 196000)).run Stream.minusOne sampleEngine playing =
        some (s, bs) ∧ s.players 0 = some p ∧ s.server.encoder.mkvWriter.dumped ≠ [] ∧
      s.server.encoder.mkvWriter.dumped = ((answers bs).map Stream.Reply.data).flatten ∧
      (∃ given, served 0 bs = given ++ p.awaits.undelivered ∧
        p.page.sourceBuffer = (given.map Stream.Reply.data).filter fun data => !data.isEmpty) ∧
      p.page.sourceBuffer.flatten ++ (p.awaits.undelivered.map Stream.Reply.data).flatten =
        s.server.encoder.mkvWriter.dumped := by
  obtain ⟨s, bs, p, ran, player, fits, _, _, _, written, _⟩ := playing_runs
  obtain ⟨whole, players⟩ := listening_whole _ _ ran fits
  obtain ⟨given, alone⟩ := players 0 p player
  refine ⟨s, bs, p, ran, player, written, whole, given, alone fun j opened => ?_⟩
  simpa [playing] using opened

end Whole

end Listening

end HttpAudioServer

import HttpAudioServer.Library.Screen
import HttpAudioServer.Logger
import HttpAudioServer.Replies

/-! What the logger writes to a stream, and what a terminal makes of it. -/
namespace HttpAudioServer

open Screen

structure Terminal where
  useColor : Bool
deriving DecidableEq, Repr

namespace Terminal

def black : Int := 30
def red : Int := 31
def blue : Int := 34
def magenta : Int := 35

def color (t : Terminal) (color : Int) (bright : Bool := true) : Bytes :=
  if t.useColor then
    str "\x1b[" ++ (if bright then str "1;" else []) ++ str (toString color) ++ str "m"
  else []

def background (t : Terminal) (color : Int) : Bytes :=
  if t.useColor then str "\x1b[" ++ str (toString (color + 10)) ++ str "m" else []

/-- The place of a colour in the large palette. -/
def code (r g b : UInt8) : Nat :=
  if r = g ∧ g = b then
    -- Issue a BW color
    if r = 0 then 16 else 232 + r.toNat * 24 / 256
  else
    -- Issue a color from the 6 x 6 x 6 color cube
    16 + r.toNat * 6 / 256 * 36 + g.toNat * 6 / 256 * 6 + b.toNat * 6 / 256

def rgb (t : Terminal) (r g b : UInt8) (background : Bool) : Bytes :=
  if t.useColor then
    str "\x1b[" ++ (if background then str "48" else str "38") ++ str ";5;" ++
      str (toString (code r g b)) ++ str "m"
  else []

def bright (t : Terminal) : Bytes := if t.useColor then str "\x1b[1m" else []

def italic (t : Terminal) : Bytes := if t.useColor then str "\x1b[3m" else []

def underline (t : Terminal) : Bytes := if t.useColor then str "\x1b[4m" else []

def reset (t : Terminal) : Bytes := if t.useColor then str "\x1b[0m" else []

end Terminal

def severity (lvl : Int) : Int × Bytes :=
  if lvl ≤ 10 then (Terminal.black, str "debug")
  else if lvl ≤ 20 then (Terminal.blue, str "info")
  else if lvl ≤ 30 then (Terminal.magenta, str "warning")
  else if lvl ≤ 40 then (Terminal.red, str "error")
  else (Terminal.red, str "fatal error")

/-- `LogStreamBackendImpl::log`. The text of a local time is a parameter. -/
def LogStreamBackend.log (timeText : Int → Bytes) (t : Terminal) (m : LogMessage) : Bytes :=
  t.italic ++ timeText m.time ++ t.reset ++
    (str " [" ++ m.moduleName ++ str "] ") ++
    (t.color (severity m.lvl).1 true ++ (severity m.lvl).2) ++
    t.reset ++ (str ": " ++ m.message ++ str "\n")

def LogStreamBackend.written (timeText : Int → Bytes) (e : LoggerBackend Terminal) : Bytes :=
  e.received.flatMap (LogStreamBackend.log timeText e.backend)

namespace Terminal

variable (t : Terminal) (a : Attributes)

/-- A terminal is sent something that changes its attributes only where colours are used. -/
def Turns (sent : Bytes) (change : Attributes → Attributes) : Prop :=
  ∀ a, Shows a sent [] (if t.useColor then change a else a)

theorem turns_of_color {sent : Bytes} {change : Attributes → Attributes}
    (colored : ∀ a, Shows a sent [] (change a)) :
    t.Turns (if t.useColor then sent else []) change := by
  intro a
  cases t.useColor with
  | true => exact colored a
  | false => exact shows_nil a

theorem bright_turns : t.Turns t.bright fun a => { a with bright := true } :=
  t.turns_of_color fun _ => rfl

theorem italic_turns : t.Turns t.italic fun a => { a with italic := true } :=
  t.turns_of_color fun _ => rfl

theorem underline_turns : t.Turns t.underline fun a => { a with underline := true } :=
  t.turns_of_color fun _ => rfl

theorem reset_turns : t.Turns t.reset fun _ => {} :=
  t.turns_of_color fun _ => rfl

theorem parameters_read : ∀ n < 256, ∀ p ∈ [([], []), (str "1;", [1]), (str "38;5;", [38, 5]),
      (str "48;5;", [48, 5])],
    (p.1 ++ codeText n).all isParameter = true ∧
      ((p.1 ++ codeText n).splitOn 59).map number = p.2 ++ [n] := by
  decide +kernel

theorem shows_parameters (a : Attributes) {n : Nat} (byte : n < 256) {p : Bytes × List Nat}
    (member : p ∈ [([], []), (str "1;", [1]), (str "38;5;", [38, 5]), (str "48;5;", [48, 5])]) :
    Shows a (str "\x1b[" ++ p.1 ++ codeText n ++ str "m") [] (select (p.2 ++ [n]) a) := by
  obtain ⟨parameters, numbers⟩ := parameters_read n byte p member
  have shown := shows_control a (List.all_eq_true.mp parameters)
  rw [numbers] at shown
  have sequence : str "\x1b[" ++ p.1 ++ codeText n ++ str "m" =
      27 :: 91 :: (p.1 ++ codeText n) ++ [109] := by
    rw [List.append_assoc (str "\x1b[")]
    rfl
  rwa [sequence]

theorem color_turns {k : Nat} (basic : k < 8) (bright : Bool) :
    t.Turns (t.color (30 + k) bright) fun a =>
      { a with bright := bright || a.bright, color := some k } := by
  have named : str (toString ((30 : Int) + k)) = codeText (30 + k) := str_toString (30 + k)
  have byte : 30 + k < 256 := by omega
  refine t.turns_of_color fun a => ?_
  rw [named]
  cases bright with
  | false =>
    have shown := shows_parameters a byte (List.mem_cons_self (a := ([], [])))
    rw [List.nil_append, select_single, switch_color basic] at shown
    exact shown
  | true =>
    have shown := shows_parameters a byte (List.mem_cons_of_mem _ List.mem_cons_self)
    have selected : select ([1] ++ [30 + k]) a = switch (30 + k) { a with bright := true } :=
      select_single _ _
    rw [selected, switch_color basic] at shown
    exact shown

theorem background_turns {k : Nat} (basic : k < 8) :
    t.Turns (t.background (30 + k)) fun a => { a with background := some k } := by
  have named : str (toString ((30 : Int) + k + 10)) = codeText (40 + k) := by
    have moved : (30 : Int) + k + 10 = (40 + k : Nat) := by omega
    rw [moved, str_toString]
  have byte : 40 + k < 256 := by omega
  refine t.turns_of_color fun a => ?_
  have shown := shows_parameters a byte (List.mem_cons_self (a := ([], [])))
  rw [List.nil_append, select_single, switch_background basic] at shown
  rw [named]
  exact shown

theorem code_bounds (r g b : UInt8) : 16 ≤ code r g b ∧ code r g b < 256 := by
  have red := r.toNat_lt
  have sixth (x : UInt8) : x.toNat * 6 / 256 ≤ 5 := by
    have bound := x.toNat_lt
    omega
  have reds := sixth r
  have greens := sixth g
  have blues := sixth b
  unfold code
  split
  · split
    · decide
    · omega
  · omega

theorem rgb_turns (r g b : UInt8) (background : Bool) :
    t.Turns (t.rgb r g b background) fun a =>
      if background then { a with background := some (code r g b) }
      else { a with color := some (code r g b) } := by
  have byte := (code_bounds r g b).2
  have named : str (toString (code r g b)) = codeText (code r g b) := str_toString (code r g b)
  refine t.turns_of_color fun a => ?_
  rw [named, List.append_assoc (str "\x1b[")]
  cases background with
  | false =>
    exact shows_parameters a byte
      (List.mem_cons_of_mem _ (List.mem_cons_of_mem _ List.mem_cons_self))
  | true =>
    exact shows_parameters a byte
      (List.mem_cons_of_mem _ (List.mem_cons_of_mem _ (List.mem_cons_of_mem _ List.mem_cons_self)))

/-- The control strings are obeyed, and are empty where no colours are used. -/
theorem controls_obeyed :
    (∀ k < 8, ∀ bright, t.Turns (t.color (30 + (k : Nat)) bright) fun a =>
      { a with bright := bright || a.bright, color := some k }) ∧
    (∀ k < 8, t.Turns (t.background (30 + (k : Nat))) fun a => { a with background := some k }) ∧
    (∀ r g b background, t.Turns (t.rgb r g b background) fun a =>
      if background then { a with background := some (code r g b) }
      else { a with color := some (code r g b) }) ∧
    t.Turns t.bright (fun a => { a with bright := true }) ∧
    t.Turns t.italic (fun a => { a with italic := true }) ∧
    t.Turns t.underline (fun a => { a with underline := true }) ∧
    t.Turns t.reset fun _ => {} :=
  ⟨fun _ basic bright => t.color_turns basic bright, fun _ basic => t.background_turns basic,
    t.rgb_turns, t.bright_turns, t.italic_turns, t.underline_turns, t.reset_turns⟩

end Terminal

section Log

def Terminal.shown (t : Terminal) (a : Attributes) (text : Bytes) : List Cell :=
  text.map fun ch => (ch, if t.useColor then a else {})

def line (timeText : Int → Bytes) (t : Terminal) (m : LogMessage) : List Cell :=
  t.shown { italic := true } (timeText m.time) ++
    t.shown {} (str " [" ++ m.moduleName ++ str "] ") ++
    t.shown { bright := true, color := some ((severity m.lvl).1 - 30).toNat } (severity m.lvl).2 ++
    t.shown {} (str ": " ++ m.message ++ str "\n")

def lineText (timeText : Int → Bytes) (m : LogMessage) : Bytes :=
  timeText m.time ++ (str " [" ++ m.moduleName ++ str "] ") ++ (severity m.lvl).2 ++
    (str ": " ++ m.message ++ str "\n")

theorem line_text (timeText : Int → Bytes) (t : Terminal) (m : LogMessage) :
    (line timeText t m).map Prod.fst = lineText timeText m := by
  have seen (a : Attributes) (text : Bytes) : (t.shown a text).map Prod.fst = text := by
    rw [Terminal.shown, List.map_map]
    exact List.map_id text
  simp only [line, lineText, List.map_append, seen]

theorem severity_basic (lvl : Int) :
    ∃ k < 8, (severity lvl).1 = 30 + (k : Nat) ∧ 27 ∉ (severity lvl).2 := by
  unfold severity
  split
  · exact ⟨0, by decide⟩
  · split
    · exact ⟨4, by decide⟩
    · split
      · exact ⟨5, by decide⟩
      · split
        · exact ⟨1, by decide⟩
        · exact ⟨1, by decide⟩

namespace Terminal

abbrev on (t : Terminal) (a : Attributes) : Attributes := if t.useColor then a else {}

theorem shows (t : Terminal) (a : Attributes) {text : Bytes} (plain : 27 ∉ text) :
    Shows (t.on a) text (t.shown a text) (t.on a) :=
  shows_text _ plain

theorem shows_plain (t : Terminal) {text : Bytes} (plain : 27 ∉ text) :
    Shows {} text (t.shown {} text) {} := by
  have shown := t.shows {} plain
  rwa [on, ite_self] at shown

theorem shows_reset (t : Terminal) (a : Attributes) : Shows (t.on a) t.reset [] {} := by
  have turned := t.reset_turns (t.on a)
  cases used : t.useColor <;> simpa [on, used] using turned

end Terminal

theorem log_line {timeText : Int → Bytes} (t : Terminal) {m : LogMessage}
    (time : 27 ∉ timeText m.time) (moduleName : 27 ∉ m.moduleName) (message : 27 ∉ m.message) :
    Shows {} (LogStreamBackend.log timeText t m) (line timeText t m) {} := by
  obtain ⟨k, basic, colored, named⟩ := severity_basic m.lvl
  have place : ((severity m.lvl).1 - 30).toNat = k := by omega
  have head : 27 ∉ str " [" ++ m.moduleName ++ str "] " :=
    List.not_mem_append (List.not_mem_append (by decide) moduleName) (by decide)
  have tail : 27 ∉ str ": " ++ m.message ++ str "\n" :=
    List.not_mem_append (List.not_mem_append (by decide) message) (by decide)
  have date : Shows {} (t.italic ++ timeText m.time ++ t.reset) _ {} :=
    ((t.italic_turns {}).append (t.shows { italic := true } time)).append (t.shows_reset _)
  have word : Shows {} (t.color (30 + (k : Nat)) true ++ (severity m.lvl).2 ++ t.reset) _ {} :=
    ((t.color_turns basic true {}).append (t.shows { bright := true, color := some k } named)).append
      (t.shows_reset _)
  have shown := ((date.append (t.shows_plain head)).append word).append (t.shows_plain tail)
  rw [← colored] at shown
  simpa only [LogStreamBackend.log, line, place, List.nil_append, List.append_nil, List.append_assoc]
    using shown

theorem heard_logged {i : Nat} {calls : List (Logger.Call Terminal)} {m : LogMessage}
    (member : m ∈ Run.moments (Logger.heard i) calls) : m ∈ Logger.logged calls := by
  obtain ⟨n, _, heard⟩ := List.mem_filterMap.mp member
  obtain ⟨c, called, given⟩ := Option.bind_eq_some_iff.mp heard
  refine List.mem_filterMap.mpr ⟨c, List.mem_of_getElem? called, ?_⟩
  cases c with
  | log message =>
    obtain ⟨_, same⟩ := Option.ite_none_right_eq_some.mp given
    exact same
  | addBackend | setMinLevel | minLevel => cases given

/-- Whatever has been done with a logger, on the stream of each backend a terminal shows the
messages that were for the backend, one after the other, as they are to be seen and with the same
text where no colours are used. What a message turns on is off again behind it. -/
theorem log_shown (timeText : Int → Bytes) (times : ∀ time, 27 ∉ timeText time)
    (calls : List (Logger.Call Terminal))
    (plain : ∀ m ∈ Logger.logged calls, 27 ∉ m.moduleName ∧ 27 ∉ m.message) {i : Nat}
    {e : LoggerBackend Terminal} (there : (Logger.after calls).backends[i]? = some e) :
    Shows {} (LogStreamBackend.written timeText e)
        ((Run.moments (Logger.heard i) calls).flatMap (line timeText e.backend)) {} ∧
      ((Run.moments (Logger.heard i) calls).flatMap (line timeText e.backend)).map Prod.fst =
        (Run.moments (Logger.heard i) calls).flatMap (lineText timeText) := by
  have received : Run.moments (Logger.heard i) calls = e.received := by
    rw [(Logger.after_reflects calls).received, there, Option.map_some, Option.getD_some]
  constructor
  · have lines : ∀ m ∈ e.received,
        Shows {} (LogStreamBackend.log timeText e.backend m) (line timeText e.backend m) {} := by
      intro m member
      obtain ⟨moduleName, message⟩ := plain m (heard_logged (received ▸ member))
      exact log_line e.backend (times m.time) moduleName message
    rw [received, LogStreamBackend.written]
    exact shows_flatMap lines
  · rw [List.map_flatMap]
    exact List.flatMap_congr fun m _ => line_text timeText e.backend m

def clock (time : Int) : Bytes :=
  if time < 60 then str "2016-07-01 12:00:00" else str "2016-07-01 12:01:00"

def session : List (Logger.Call Terminal) :=
  [.addBackend ⟨true⟩ 20, .addBackend ⟨false⟩ 10, .log ⟨10, 0, str "server", str "poll"⟩,
    .log ⟨20, 5, str "server", str "Listening\non port 4851"⟩,
    .log ⟨40, 65, str "decoder", str "Error while decoding"⟩]

theorem log_shown_session :
    ∃ e, (Logger.after session).backends[0]? = some e ∧
      Run.moments (Logger.heard 0) session =
        [⟨20, 5, str "server", str "Listening\non port 4851"⟩,
          ⟨40, 65, str "decoder", str "Error while decoding"⟩] ∧
      Shows {} (LogStreamBackend.written clock e)
        ((Run.moments (Logger.heard 0) session).flatMap (line clock e.backend)) {} ∧
      ((Run.moments (Logger.heard 0) session).flatMap (line clock e.backend)).map Prod.fst =
        str "2016-07-01 12:00:00 [server] info: Listening\non port 4851\n" ++
          str "2016-07-01 12:01:00 [decoder] error: Error while decoding\n" := by
  have times : ∀ time, 27 ∉ clock time := by
    intro time
    unfold clock
    split <;> decide
  have plain : ∀ m ∈ Logger.logged session, 27 ∉ m.moduleName ∧ 27 ∉ m.message := by
    decide
  obtain ⟨shown, text⟩ := log_shown clock times session plain (i := 0) rfl
  exact ⟨_, rfl, by decide, shown, text.trans (by decide)⟩

end Log

end HttpAudioServer

import Mathlib.Data.List.Basic

/-! A terminal that is sent bytes: what it shows, and with which attributes. A control sequence is
an escape, a bracket, parameters and the letter that ends it. Those that end with `m` select the
attributes, and others are not obeyed. -/
namespace Screen

/-- A colour is a place in the palette. -/
structure Attributes where
  bright : Bool := false
  italic : Bool := false
  underline : Bool := false
  color : Option Nat := none
  background : Option Nat := none
deriving DecidableEq, Repr

inductive Mode where
  | text
  | escape
  | control (parameters : List UInt8)
deriving DecidableEq, Repr

structure State where
  mode : Mode := .text
  attributes : Attributes := {}
deriving DecidableEq, Repr

abbrev Cell : Type := UInt8 × Attributes

def switch (parameter : Nat) (a : Attributes) : Attributes :=
  if parameter = 0 then {}
  else if parameter = 1 then { a with bright := true }
  else if parameter = 3 then { a with italic := true }
  else if parameter = 4 then { a with underline := true }
  else if 30 ≤ parameter ∧ parameter ≤ 37 then { a with color := some (parameter - 30) }
  else if 40 ≤ parameter ∧ parameter ≤ 47 then { a with background := some (parameter - 40) }
  else a

/-- A colour of the large palette takes three parameters. -/
def select : List Nat → Attributes → Attributes
  | [], a => a
  | 38 :: 5 :: n :: ps, a => select ps { a with color := some n }
  | 48 :: 5 :: n :: ps, a => select ps { a with background := some n }
  | p :: ps, a => select ps (switch p a)

theorem select_single (p : Nat) (a : Attributes) : select [p] a = switch p a := by
  unfold select
  split <;> simp_all [select]

theorem switch_color {k : Nat} (basic : k < 8) (a : Attributes) :
    switch (30 + k) a = { a with color := some k } := by
  have range : 30 ≤ 30 + k ∧ 30 + k ≤ 37 := by omega
  rw [switch, if_neg (by omega), if_neg (by omega), if_neg (by omega), if_neg (by omega),
    if_pos range, Nat.add_sub_cancel_left]

theorem switch_background {k : Nat} (basic : k < 8) (a : Attributes) :
    switch (40 + k) a = { a with background := some k } := by
  have range : 40 ≤ 40 + k ∧ 40 + k ≤ 47 := by omega
  rw [switch, if_neg (by omega), if_neg (by omega), if_neg (by omega), if_neg (by omega),
    if_neg (by omega), if_pos range, Nat.add_sub_cancel_left]

/-- A parameter that is left out is 0. -/
def number (digits : List UInt8) : Nat := digits.foldl (fun n ch => n * 10 + (ch.toNat - 48)) 0

def isParameter (ch : UInt8) : Bool := 48 ≤ ch && ch ≤ 59

def step (s : State) (ch : UInt8) : State × Option Cell :=
  match s.mode with
  | .text => if ch = 27 then ({ s with mode := .escape }, none) else (s, some (ch, s.attributes))
  | .escape => ({ s with mode := if ch = 91 then .control [] else .text }, none)
  | .control ps =>
    if isParameter ch then ({ s with mode := .control (ps ++ [ch]) }, none)
    else if ch = 109 then (⟨.text, select ((ps.splitOn 59).map number) s.attributes⟩, none)
    else ({ s with mode := .text }, none)

def display : State → List UInt8 → State × List Cell
  | s, [] => (s, [])
  | s, ch :: text =>
    ((display (step s ch).1 text).1, (step s ch).2.toList ++ (display (step s ch).1 text).2)

theorem display_append (s : State) (text more : List UInt8) :
    display s (text ++ more) =
      ((display (display s text).1 more).1,
        (display s text).2 ++ (display (display s text).1 more).2) := by
  induction text generalizing s with
  | nil => rfl
  | cons ch text ih =>
    simp only [List.cons_append, display, ih, List.append_assoc]

/-- What is sent with the attributes `a` is shown as `cells`, and then the attributes are `b`. -/
def Shows (a : Attributes) (sent : List UInt8) (cells : List Cell) (b : Attributes) : Prop :=
  display ⟨.text, a⟩ sent = (⟨.text, b⟩, cells)

theorem Shows.append {a b c : Attributes} {sent more : List UInt8} {cells others : List Cell}
    (first : Shows a sent cells b) (second : Shows b more others c) :
    Shows a (sent ++ more) (cells ++ others) c := by
  unfold Shows at first second ⊢
  rw [display_append, first, second]

theorem shows_nil (a : Attributes) : Shows a [] [] a := rfl

theorem shows_text (a : Attributes) {text : List UInt8} (plain : 27 ∉ text) :
    Shows a text (text.map fun ch => (ch, a)) a := by
  induction text with
  | nil => rfl
  | cons ch text ih =>
    rw [List.mem_cons, not_or] at plain
    have shown : step ⟨.text, a⟩ ch = (⟨.text, a⟩, some (ch, a)) := if_neg (Ne.symm plain.1)
    have later : display ⟨.text, a⟩ text = _ := ih plain.2
    rw [Shows, display, shown, later]
    rfl

theorem display_parameters (a : Attributes) (ps more : List UInt8)
    (parameters : ∀ ch ∈ more, isParameter ch = true) :
    display ⟨.control ps, a⟩ more = (⟨.control (ps ++ more), a⟩, []) := by
  induction more generalizing ps with
  | nil => rw [List.append_nil, display]
  | cons ch more ih =>
    obtain ⟨first, others⟩ := List.forall_mem_cons.mp parameters
    have taken : step ⟨.control ps, a⟩ ch = (⟨.control (ps ++ [ch]), a⟩, none) := if_pos first
    rw [display, taken, ih _ others, List.append_assoc]
    rfl

theorem shows_control (a : Attributes) {ps : List UInt8}
    (parameters : ∀ ch ∈ ps, isParameter ch = true) :
    Shows a (27 :: 91 :: ps ++ [109]) [] (select ((ps.splitOn 59).map number) a) := by
  have opened : display ⟨.text, a⟩ [27, 91] = (⟨.control [], a⟩, []) := rfl
  have sequence : (27 :: 91 :: ps ++ [109] : List UInt8) = [27, 91] ++ (ps ++ [109]) := rfl
  rw [Shows, sequence, display_append, opened, display_append, display_parameters a [] ps parameters]
  rfl

/-- One record after the other, each of which begins and ends with the same attributes. -/
theorem shows_flatMap {β : Type} {a : Attributes} {records : List β} {sent : β → List UInt8}
    {cells : β → List Cell} (each : ∀ x ∈ records, Shows a (sent x) (cells x) a) :
    Shows a (records.flatMap sent) (records.flatMap cells) a := by
  induction records with
  | nil => exact shows_nil a
  | cons x records ih =>
    obtain ⟨first, others⟩ := List.forall_mem_cons.mp each
    exact first.append (ih others)

end Screen

import Mathlib.Data.List.Basic

/-! Regular expressions with groups, as a relation: an expression, a text that it matches as a
whole, and what its groups have matched, in the order of their opening brackets. A match is any
parse of the text, so what holds for all of them does not depend on how a matcher searches. -/
namespace Regex

variable {α : Type}

inductive Expr (α : Type) where
  | empty
  | char (among : α → Bool)
  | seq (first second : Expr α)
  | optional (body : Expr α)
  | plus (body : Expr α)
  | group (body : Expr α)

namespace Expr

def groups : Expr α → Nat
  | empty => 0
  | char _ => 0
  | seq first second => first.groups + second.groups
  | optional body => body.groups
  | plus body => body.groups
  | group body => body.groups + 1

/-- A group that takes no part in a match is empty, and of several rounds the last one counts. -/
inductive Matches : Expr α → List α → List (List α) → Prop where
  | empty : Matches empty [] []
  | char {among : α → Bool} {a : α} (member : among a = true) : Matches (char among) [a] []
  | seq {first second : Expr α} {s t : List α} {gs hs : List (List α)}
      (left : Matches first s gs) (right : Matches second t hs) :
      Matches (seq first second) (s ++ t) (gs ++ hs)
  | present {body : Expr α} {s : List α} {gs : List (List α)} (inside : Matches body s gs) :
      Matches (optional body) s gs
  | absent {body : Expr α} : Matches (optional body) [] (List.replicate body.groups [])
  | once {body : Expr α} {s : List α} {gs : List (List α)} (round : Matches body s gs) :
      Matches (plus body) s gs
  | again {body : Expr α} {s t : List α} {gs hs : List (List α)} (round : Matches body s gs)
      (later : Matches (plus body) t hs) : Matches (plus body) (s ++ t) hs
  | group {body : Expr α} {s : List α} {gs : List (List α)} (inside : Matches body s gs) :
      Matches (group body) s (s :: gs)

/-- The characters of a text one after the other. They are compared after a translation, which
may forget the case of letters. -/
def literal {β : Type} [DecidableEq β] (translate : α → β) : List α → Expr α
  | [] => empty
  | a :: text => seq (char fun b => decide (translate b = translate a)) (literal translate text)

section Rules

variable {s : List α} {gs : List (List α)}

theorem matches_empty : Matches (empty : Expr α) s gs ↔ s = [] ∧ gs = [] := by
  constructor
  · rintro ⟨⟩
    exact ⟨rfl, rfl⟩
  · rintro ⟨rfl, rfl⟩
    exact .empty

theorem matches_char {among : α → Bool} :
    Matches (char among) s gs ↔ ∃ a, s = [a] ∧ among a = true ∧ gs = [] := by
  constructor
  · rintro ⟨⟩
    exact ⟨_, rfl, ‹_›, rfl⟩
  · rintro ⟨a, rfl, member, rfl⟩
    exact .char member

theorem matches_seq {first second : Expr α} :
    Matches (seq first second) s gs ↔
      ∃ t u hs ks, s = t ++ u ∧ gs = hs ++ ks ∧ Matches first t hs ∧ Matches second u ks := by
  constructor
  · intro found
    cases found with
    | seq left right => exact ⟨_, _, _, _, rfl, rfl, left, right⟩
  · rintro ⟨t, u, hs, ks, rfl, rfl, left, right⟩
    exact .seq left right

theorem matches_optional {body : Expr α} :
    Matches (optional body) s gs ↔
      Matches body s gs ∨ (s = [] ∧ gs = List.replicate body.groups []) := by
  constructor
  · intro found
    cases found with
    | present inside => exact .inl inside
    | absent => exact .inr ⟨rfl, rfl⟩
  · rintro (inside | ⟨rfl, rfl⟩)
    · exact .present inside
    · exact .absent

theorem matches_group {body : Expr α} :
    Matches (group body) s gs ↔ ∃ hs, gs = s :: hs ∧ Matches body s hs := by
  constructor
  · intro found
    cases found with
    | group inside => exact ⟨_, rfl, inside⟩
  · rintro ⟨hs, rfl, inside⟩
    exact .group inside

theorem matches_literal {β : Type} [DecidableEq β] {translate : α → β} {text : List α} :
    Matches (literal translate text) s gs ↔ s.map translate = text.map translate ∧ gs = [] := by
  induction text generalizing s gs with
  | nil => rw [literal, matches_empty, List.map_nil, List.map_eq_nil_iff]
  | cons a text ih =>
    simp only [literal, matches_seq, matches_char, ih, decide_eq_true_eq]
    constructor
    · rintro ⟨_, u, _, _, rfl, rfl, ⟨b, rfl, equal, rfl⟩, rest, rfl⟩
      exact ⟨List.cons_eq_cons.mpr ⟨equal, rest⟩, rfl⟩
    · rintro ⟨every, rfl⟩
      cases s with
      | nil => contradiction
      | cons b u =>
        obtain ⟨equal, rest⟩ := List.cons_eq_cons.mp every
        exact ⟨[b], u, [], [], rfl, rfl, ⟨b, rfl, equal, rfl⟩, rest, rfl⟩

theorem matches_text [DecidableEq α] {text : List α} :
    Matches (literal id text) s gs ↔ s = text ∧ gs = [] := by
  rw [matches_literal, List.map_id, List.map_id]

theorem matches_plus_char {among : α → Bool} :
    Matches (plus (char among)) s gs ↔ s ≠ [] ∧ (∀ a ∈ s, among a = true) ∧ gs = [] := by
  constructor
  · intro found
    generalize whole : plus (char among) = e at found
    induction found with
    | once round =>
      cases whole
      obtain ⟨a, rfl, member, rfl⟩ := matches_char.mp round
      exact ⟨List.cons_ne_nil _ _, List.forall_mem_singleton.mpr member, rfl⟩
    | again round later _ ih =>
      cases whole
      obtain ⟨a, rfl, member, rfl⟩ := matches_char.mp round
      obtain ⟨_, every, rfl⟩ := ih rfl
      exact ⟨List.cons_ne_nil _ _, List.forall_mem_cons.mpr ⟨member, every⟩, rfl⟩
    | _ => contradiction
  · rintro ⟨some_left, every, rfl⟩
    induction s with
    | nil => contradiction
    | cons a s ih =>
      obtain ⟨member, later⟩ := List.forall_mem_cons.mp every
      cases s with
      | nil => exact .once (.char member)
      | cons b s => exact .again (s := [a]) (.char member) (ih (List.cons_ne_nil _ _) later)

end Rules

end Expr

end Regex

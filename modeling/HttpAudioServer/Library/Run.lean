import Mathlib.Data.List.Basic
import Mathlib.Data.List.Induction

/-! Runs of a deterministic machine that answers every input. A step that does not
come to an end gives no state, and then neither does the run. -/
namespace Run

variable {σ α β : Type}

def run (step : σ → α → Option (σ × β)) : σ → List α → Option (σ × List β)
  | s, [] => some (s, [])
  | s, a :: as =>
    (step s a).bind fun (t, b) => (run step t as).map fun (u, bs) => (u, b :: bs)

variable {step : σ → α → Option (σ × β)}

@[simp] theorem run_nil (s : σ) : run step s [] = some (s, []) := rfl

theorem run_cons {s t : σ} {a : α} {b : β} (h : step s a = some (t, b)) (as : List α) :
    run step s (a :: as) = (run step t as).map fun (u, bs) => (u, b :: bs) := by
  simp [run, h]

theorem run_cons_eq_some {s u : σ} {a : α} {as : List α} {bs : List β} :
    run step s (a :: as) = some (u, bs) ↔
      ∃ t b cs, step s a = some (t, b) ∧ run step t as = some (u, cs) ∧ bs = b :: cs := by
  simp only [run, Option.bind_eq_some_iff, Option.map_eq_some_iff, Prod.exists, Prod.mk.injEq]
  constructor
  · rintro ⟨t, b, first, u', cs, later, rfl, rfl⟩
    exact ⟨t, b, cs, first, later, rfl⟩
  · rintro ⟨t, b, cs, first, later, rfl⟩
    exact ⟨t, b, first, u, cs, later, rfl, rfl⟩

theorem run_append_eq_some {s u : σ} {as as' : List α} {bs : List β} :
    run step s (as ++ as') = some (u, bs) ↔
      ∃ t cs cs', run step s as = some (t, cs) ∧ run step t as' = some (u, cs') ∧
        bs = cs ++ cs' := by
  induction as generalizing s bs with
  | nil => simp
  | cons a as ih =>
    simp only [List.cons_append, run_cons_eq_some, ih]
    constructor
    · rintro ⟨t, b, _, first, ⟨v, cs, cs', left, right, rfl⟩, rfl⟩
      exact ⟨v, b :: cs, cs', ⟨t, b, cs, first, left, rfl⟩, right, rfl⟩
    · rintro ⟨v, _, cs', ⟨t, b, cs, first, left, rfl⟩, right, rfl⟩
      exact ⟨t, b, cs ++ cs', first, ⟨v, cs, cs', left, right, rfl⟩, rfl⟩

theorem length_of_run {s u : σ} {as : List α} {bs : List β} (ran : run step s as = some (u, bs)) :
    bs.length = as.length := by
  induction as generalizing s bs with
  | nil =>
    cases ran
    rfl
  | cons a as ih =>
    obtain ⟨t, b, cs, _, later, rfl⟩ := run_cons_eq_some.mp ran
    rw [List.length_cons, List.length_cons, ih later]

theorem concat_split {as before after : List α} {a x : α}
    (split : as ++ [a] = before ++ x :: after) :
    (before = as ∧ x = a ∧ after = []) ∨ ∃ rest, after = rest ++ [a] ∧ as = before ++ x :: rest := by
  rcases List.eq_nil_or_concat after with rfl | ⟨rest, y, rfl⟩
  · obtain ⟨rfl, same⟩ := List.append_inj' split rfl
    cases same
    exact .inl ⟨rfl, rfl, rfl⟩
  · rw [List.concat_eq_append, ← List.cons_append, ← List.append_assoc] at split
    obtain ⟨rfl, same⟩ := List.append_inj' split rfl
    cases same
    exact .inr ⟨rest, List.concat_eq_append, rfl⟩

/-- What each element gives, knowing the ones before it. -/
def moments {γ : Type} (f : List α → α → Option γ) (as : List α) : List γ :=
  (List.range as.length).filterMap fun t => as[t]?.bind (f (as.take t))

theorem moments_concat {γ : Type} (f : List α → α → Option γ) (as : List α) (a : α) :
    moments f (as ++ [a]) = moments f as ++ (f as a).toList := by
  have earlier : ∀ t ∈ List.range as.length,
      ((as ++ [a])[t]?.bind (f ((as ++ [a]).take t))) = as[t]?.bind (f (as.take t)) := by
    intro t below
    have bound : t < as.length := List.mem_range.mp below
    rw [List.getElem?_append_left bound, List.take_append_of_le_length (Nat.le_of_lt bound)]
  rw [moments, List.length_append, List.length_singleton, List.range_succ, List.filterMap_append,
    List.filterMap_congr earlier, ← moments]
  have last : (as ++ [a])[as.length]?.bind (f ((as ++ [a]).take as.length)) = f as a := by
    rw [List.getElem?_concat_length, List.take_left, Option.bind_some]
  rw [List.filterMap_cons, last]
  cases f as a <;> rfl

/-- Every step of a run is taken in a state and on an input that are allowed. -/
def Along (step : σ → α → Option (σ × β)) (allowed : σ → α → Prop) (start : σ)
    (as : List α) : Prop :=
  ∀ before a after s bs, as = before ++ a :: after → run step start before = some (s, bs) →
    allowed s a

theorem along_of_forall {allowed : α → Prop} {start : σ} {as : List α}
    (every : ∀ a ∈ as, allowed a) : Along step (fun _ => allowed) start as := by
  rintro before a after s bs rfl _
  exact every a (by simp)

theorem Along.and {allowed other : σ → α → Prop} {start : σ} {as : List α}
    (along : Along step allowed start as) (along' : Along step other start as) :
    Along step (fun s a => allowed s a ∧ other s a) start as :=
  fun before a after s bs split reached =>
    ⟨along before a after s bs split reached, along' before a after s bs split reached⟩

theorem Along.imp {allowed other : σ → α → Prop} {start : σ} {as : List α}
    (along : Along step allowed start as) (weaker : ∀ s a, allowed s a → other s a) :
    Along step other start as :=
  fun before a after s bs split reached => weaker s a (along before a after s bs split reached)

theorem Along.before {allowed : σ → α → Prop} {start : σ} {as as' : List α}
    (along : Along step allowed start (as ++ as')) : Along step allowed start as := by
  rintro before a after s bs rfl reached
  exact along before a (after ++ as') s bs (by simp) reached

theorem along_nil {allowed : σ → α → Prop} (start : σ) : Along step allowed start [] := by
  intro before a after s bs split
  simp at split

theorem along_cons {allowed : σ → α → Prop} {start : σ} {a : α} {as : List α}
    (first : allowed start a)
    (later : ∀ t b, step start a = some (t, b) → Along step allowed t as) :
    Along step allowed start (a :: as) := by
  intro before x after s bs split reached
  cases before with
  | nil =>
    obtain ⟨rfl, _⟩ := List.cons.inj split
    cases reached
    exact first
  | cons y before =>
    obtain ⟨rfl, rest⟩ := List.cons.inj split
    obtain ⟨t, b, cs, stepped, ran, _⟩ := run_cons_eq_some.mp reached
    exact later t b stepped before x after s cs rest ran

theorem Along.tail {allowed : σ → α → Prop} {s t : σ} {a : α} {as : List α} {b : β}
    (along : Along step allowed s (a :: as)) (stepped : step s a = some (t, b)) :
    Along step allowed t as := by
  rintro before x after u bs rfl reached
  refine along (a :: before) x after u (b :: bs) rfl ?_
  rw [run_cons stepped, reached]
  rfl

theorem Along.head {allowed : σ → α → Prop} {s : σ} {a : α} {as : List α}
    (along : Along step allowed s (a :: as)) : allowed s a :=
  along [] a as s [] rfl rfl

/-- For given inputs it can be computed whether the steps are allowed. -/
instance {allowed : σ → α → Prop} [∀ s a, Decidable (allowed s a)] :
    (as : List α) → (s : σ) → Decidable (Along step allowed s as)
  | [], s => .isTrue (along_nil s)
  | a :: as, s =>
    if first : allowed s a then
      match stepped : step s a with
      | none => .isTrue (along_cons first fun t b other => by rw [stepped] at other; contradiction)
      | some (t, b) =>
        have : Decidable (Along step allowed t as) := instDecidableAlong as t
        if later : Along step allowed t as then
          .isTrue (along_cons first fun t' b' same => by
            cases stepped.symm.trans same
            exact later)
        else .isFalse fun along => later (along.tail stepped)
    else .isFalse fun along => first along.head

theorem Along.concat {allowed : σ → α → Prop} {start : σ} {as : List α} {a : α}
    (along : Along step allowed start as)
    (last : ∀ s bs, run step start as = some (s, bs) → allowed s a) :
    Along step allowed start (as ++ [a]) := by
  intro before x after s bs split reached
  rcases concat_split split with ⟨rfl, rfl, _⟩ | ⟨rest, _, earlier⟩
  · exact last s bs reached
  · exact along before x rest s bs earlier reached

/-- What every run keeps: a property that holds at the start and that every allowed step
extends holds at the end, and the run gets there. -/
theorem run_induct (inv : List α → List β → σ → Prop) (allowed : σ → α → Prop) {start : σ}
    (initial : inv [] [] start)
    (extend : ∀ as bs s a, run step start as = some (s, bs) → inv as bs s → allowed s a →
      ∃ t b, step s a = some (t, b) ∧ inv (as ++ [a]) (bs ++ [b]) t)
    (as : List α) (along : Along step allowed start as) :
    ∃ t bs, run step start as = some (t, bs) ∧ inv as bs t := by
  induction as using List.reverseRec with
  | nil => exact ⟨start, [], rfl, initial⟩
  | append_singleton as a ih =>
    obtain ⟨s, bs, reached, before⟩ := ih along.before
    have allowed := along as a [] s bs rfl reached
    obtain ⟨t, b, stepped, after⟩ := extend as bs s a reached before allowed
    refine ⟨t, bs ++ [b], ?_, after⟩
    rw [run_append_eq_some]
    exact ⟨s, bs, [b], reached, by simp [run_cons stepped], rfl⟩

/-- What holds at the start and after each step that is taken holds at the end. -/
theorem run_keeps (inv : List α → List β → σ → Prop) {start : σ} (initial : inv [] [] start)
    (preserved : ∀ as bs s a t b, inv as bs s → step s a = some (t, b) →
      inv (as ++ [a]) (bs ++ [b]) t)
    {as : List α} {bs : List β} {t : σ} (ran : run step start as = some (t, bs)) : inv as bs t := by
  induction as using List.reverseRec generalizing bs t with
  | nil =>
    cases ran
    exact initial
  | append_singleton as a ih =>
    obtain ⟨s, cs, ds, before, last, rfl⟩ := run_append_eq_some.mp ran
    obtain ⟨u, b, es, stepped, ended, rfl⟩ := run_cons_eq_some.mp last
    cases ended
    exact preserved as cs s a t b (ih before) stepped

section Each

/-- Every element of a history stands in the relation to what came before it. -/
def Each (law : List α → α → Prop) (as : List α) : Prop :=
  ∀ before a after, as = before ++ a :: after → law before a

variable {law : List α → α → Prop}

theorem each_nil : Each law [] := by
  intro before a after split
  simp at split

theorem each_concat {as : List α} {a : α} : Each law (as ++ [a]) ↔ Each law as ∧ law as a := by
  constructor
  · intro each
    refine ⟨?_, each as a [] rfl⟩
    rintro before x after rfl
    exact each before x (after ++ [a]) (by simp)
  · rintro ⟨each, last⟩ before x after split
    rcases concat_split split with ⟨rfl, rfl, _⟩ | ⟨rest, _, earlier⟩
    · exact last
    · exact each before x rest earlier

end Each

end Run

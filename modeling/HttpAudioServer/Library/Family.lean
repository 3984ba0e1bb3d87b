import HttpAudioServer.Library.Run
import Mathlib.Data.List.ReduceOption
import Mathlib.Logic.Function.Basic

/-! Machines of one kind side by side, and one machine behind another. -/

/-! Each input is for one of the machines, and the others do not notice it. -/
namespace Family

variable {ι σ α β : Type} [DecidableEq ι]

def step (machine : σ → α → Option (σ × β)) (s : ι → σ) (a : ι × α) : Option ((ι → σ) × β) :=
  (machine (s a.1) a.2).map fun (t, b) => (Function.update s a.1 t, b)

def inputs (i : ι) (as : List (ι × α)) : List α :=
  as.filterMap fun a => if a.1 = i then some a.2 else none

def outputs (i : ι) (as : List (ι × α)) (bs : List β) : List β :=
  (as.zip bs).filterMap fun p => if p.1.1 = i then some p.2 else none

variable {machine : σ → α → Option (σ × β)}

end Family

/-! What the first machine gives now and then is an input of the second one. -/
namespace Cascade

variable {σ τ α β γ : Type}

def step (first : σ → α → Option (σ × Option β)) (second : τ → β → Option (τ × γ))
    (s : σ × τ) (a : α) : Option ((σ × τ) × Option γ) :=
  match first s.1 a with
  | none => none
  | some (u, none) => some ((u, s.2), none)
  | some (u, some b) => (second s.2 b).map fun (v, c) => ((u, v), some c)

variable {first : σ → α → Option (σ × Option β)} {second : τ → β → Option (τ × γ)}

end Cascade

/-! Machines of one kind side by side that have a store in common. -/
namespace Sharing

variable {ι σ τ α β : Type} [DecidableEq ι]

def step (machine : τ → σ → α → Option (τ × σ × β)) (s : (ι → σ) × τ) (a : ι × α) :
    Option (((ι → σ) × τ) × β) :=
  (machine s.2 (s.1 a.1) a.2).map fun (u, t, b) => ((Function.update s.1 a.1 t, u), b)

theorem inputs_concat (i : ι) (as : List (ι × α)) (a : ι × α) :
    Family.inputs i (as ++ [a]) = Family.inputs i as ++ if a.1 = i then [a.2] else [] := by
  by_cases own : a.1 = i <;> simp [Family.inputs, own]

theorem outputs_concat (i : ι) {as : List (ι × α)} {bs : List β} (count : bs.length = as.length)
    (a : ι × α) (b : β) :
    Family.outputs i (as ++ [a]) (bs ++ [b]) =
      Family.outputs i as bs ++ if a.1 = i then [b] else [] := by
  rw [Family.outputs, List.zip_append count.symm]
  by_cases own : a.1 = i <;> simp [Family.outputs, own]

variable {machine : τ → σ → α → Option (τ × σ × β)}

/-- A law for each machine over what it was given and has answered, and one for the store over all
answers: if an allowed step of a machine gets on with both then so does every run of such steps. The
step may be known to be the next one of the inputs of its machine. -/
theorem run_keeps (law : ι → List α → List β → σ → Prop) (kept : List β → τ → Prop)
    (allowed : σ → α → Prop) {s : (ι → σ) × τ} {as : List (ι × α)}
    (along : Run.Along (step machine) (fun s a => allowed (s.1 a.1) a.2) s as)
    (initial : ∀ i, law i [] [] (s.1 i)) (start : kept [] s.2)
    (extend : ∀ i past a bs outs t u, past ++ [a] <+: Family.inputs i as → allowed t a →
      law i past bs t → kept outs u → ∃ v r b, machine u t a = some (v, r, b) ∧ law i (past ++ [a]) (bs ++ [b]) r ∧
        kept (outs ++ [b]) v) :
    ∃ t u bs, Run.run (step machine) s as = some ((t, u), bs) ∧ kept bs u ∧
      ∀ i, law i (Family.inputs i as) (Family.outputs i as bs) (t i) := by
  have reach : ∀ past, past <+: as → ∃ t u bs, Run.run (step machine) s past = some ((t, u), bs) ∧
      kept bs u ∧ ∀ i, law i (Family.inputs i past) (Family.outputs i past bs) (t i) := by
    intro past
    induction past using List.reverseRec with
    | nil => exact fun _ => ⟨s.1, s.2, [], rfl, start, initial⟩
    | append_singleton past a ih =>
      intro part
      obtain ⟨t, u, bs, ran, stored, laws⟩ := ih ((List.prefix_append _ _).trans part)
      have next : Family.inputs a.1 past ++ [a.2] <+: Family.inputs a.1 as := by
        have filtered : Family.inputs a.1 (past ++ [a]) <+: Family.inputs a.1 as :=
          part.filterMap _
        rwa [inputs_concat, if_pos rfl] at filtered
      have able : allowed (t a.1) a.2 := by
        obtain ⟨later, split⟩ := part
        exact along past a later (t, u) bs (by rw [← split, List.append_assoc]; rfl) ran
      obtain ⟨v, r, b, stepped, own, still⟩ :=
        extend a.1 _ a.2 _ bs (t a.1) u next able (laws a.1) stored
      refine ⟨Function.update t a.1 r, v, bs ++ [b], ?_, still, fun i => ?_⟩
      · rw [Run.run_append_eq_some]
        have last : step machine (t, u) a = some ((Function.update t a.1 r, v), b) := by
          rw [step, stepped, Option.map_some]
        exact ⟨(t, u), bs, [b], ran, by rw [Run.run_cons last, Run.run_nil, Option.map_some], rfl⟩
      · rw [inputs_concat, outputs_concat i (Run.length_of_run ran)]
        by_cases same : a.1 = i
        · subst same
          rwa [if_pos rfl, if_pos rfl, Function.update_self]
        · rw [if_neg same, if_neg same, List.append_nil, List.append_nil,
            Function.update_of_ne (Ne.symm same)]
          exact laws i
  exact reach as (List.prefix_refl _)

/-- What a machine keeps in a run of all, whatever is in the store. -/
theorem run_own (i : ι) (law : List α → σ → Prop) {s t : (ι → σ) × τ} {as : List (ι × α)}
    {bs : List β} (initial : law [] (s.1 i))
    (extend : ∀ past a u v r x b, a ∈ Family.inputs i as → law past r →
      machine u r a = some (v, x, b) → law (past ++ [a]) x)
    (ran : Run.run (step machine) s as = some (t, bs)) : law (Family.inputs i as) (t.1 i) := by
  induction as using List.reverseRec generalizing t bs with
  | nil =>
    cases ran
    exact initial
  | append_singleton as a ih =>
    obtain ⟨u, cs, ds, before, last, rfl⟩ := Run.run_append_eq_some.mp ran
    obtain ⟨w, b, es, stepped, ended, rfl⟩ := Run.run_cons_eq_some.mp last
    cases ended
    obtain ⟨⟨v, x, b⟩, moved, same⟩ := Option.map_eq_some_iff.mp stepped
    cases same
    rw [inputs_concat] at extend ⊢
    have earlier := ih (fun past a u v r x b member => extend past a u v r x b
      (List.mem_append_left _ member)) before
    change law _ (Function.update u.1 a.1 x i)
    by_cases own : a.1 = i
    · subst own
      rw [if_pos rfl] at extend ⊢
      rw [Function.update_self]
      exact extend _ _ _ _ _ _ _ (by simp) earlier moved
    · rw [if_neg own, List.append_nil, Function.update_of_ne (Ne.symm own)]
      exact earlier

end Sharing

import HttpAudioServer.Library.Run

/-! Noninterference of two users of one machine, by unwinding: what one of them sees of the
state decides what it is answered, and the other one does not change what it sees. -/
namespace Unwinding

variable {σ τ α β : Type}

/-- The last list is put together from the other two, each in its order. -/
inductive Interleaves : List α → List α → List α → Prop where
  | nil : Interleaves [] [] []
  | left {a : α} {as bs cs : List α} (rest : Interleaves as bs cs) :
      Interleaves (a :: as) bs (a :: cs)
  | right {b : α} {as bs cs : List α} (rest : Interleaves as bs cs) :
      Interleaves as (b :: bs) (b :: cs)

def answersTo (mine : α → Prop) [DecidablePred mine] (as : List α) (rs : List β) : List β :=
  ((as.zip rs).filter fun p => mine p.1).map Prod.snd

section Answers

variable {mine : α → Prop} [DecidablePred mine]

@[simp] theorem answersTo_nil : answersTo mine [] ([] : List β) = [] := rfl

theorem answersTo_mine {a : α} (own : mine a) (as : List α) (r : β) (rs : List β) :
    answersTo mine (a :: as) (r :: rs) = r :: answersTo mine as rs := by
  simp [answersTo, own]

theorem answersTo_other {a : α} (foreign : ¬ mine a) (as : List α) (r : β) (rs : List β) :
    answersTo mine (a :: as) (r :: rs) = answersTo mine as rs := by
  simp [answersTo, foreign]

end Answers

/-- The conditions on one step, between states of an invariant. -/
structure Unwinds (step : σ → α → Option (σ × β)) (inv : σ → Prop) (view : σ → τ)
    (mine other : α → Prop) : Prop where
  consistent : ∀ s s' a, inv s → inv s' → view s = view s' → mine a →
    ∃ t t' r, step s a = some (t, r) ∧ step s' a = some (t', r) ∧ inv t ∧ inv t' ∧
      view t = view t'
  silent : ∀ s a, inv s → other a → ∃ t r, step s a = some (t, r) ∧ inv t ∧ view t = view s

/-- In every interleaving one user is answered, and sees in the end, what it is answered and
sees when it is alone. The induction is on the interleaving, with both runs side by side. -/
theorem Unwinds.runs {step : σ → α → Option (σ × β)} {inv : σ → Prop} {view : σ → τ}
    {mine other : α → Prop} [DecidablePred mine] (unwinds : Unwinds step inv view mine other)
    (foreign : ∀ a, other a → ¬ mine a) {as bs cs : List α} (merged : Interleaves as bs cs)
    (own : ∀ a ∈ as, mine a) (others : ∀ b ∈ bs, other b) {s s' : σ} (valid : inv s)
    (valid' : inv s') (same : view s = view s') :
    ∃ t rs t' rs', Run.run step s cs = some (t, rs) ∧ Run.run step s' as = some (t', rs') ∧
      answersTo mine cs rs = rs' ∧ view t = view t' := by
  induction merged generalizing s s' with
  | nil => exact ⟨s, [], s', [], rfl, rfl, rfl, same⟩
  | @left a as bs cs rest ih =>
    have first : mine a := own a List.mem_cons_self
    obtain ⟨u, u', r, stepped, stepped', kept, kept', still⟩ :=
      unwinds.consistent s s' a valid valid' same first
    obtain ⟨t, rs, t', rs', ran, ran', answers, final⟩ :=
      ih (fun x member => own x (List.mem_cons_of_mem _ member)) others kept kept' still
    refine ⟨t, r :: rs, t', r :: rs', ?_, ?_, ?_, final⟩
    · exact Run.run_cons_eq_some.mpr ⟨u, r, rs, stepped, ran, rfl⟩
    · exact Run.run_cons_eq_some.mpr ⟨u', r, rs', stepped', ran', rfl⟩
    · rw [answersTo_mine first, answers]
  | @right b as bs cs rest ih =>
    have first : other b := others b List.mem_cons_self
    obtain ⟨u, r, stepped, kept, still⟩ := unwinds.silent s b valid first
    obtain ⟨t, rs, t', rs', ran, ran', answers, final⟩ :=
      ih own (fun x member => others x (List.mem_cons_of_mem _ member)) kept valid'
        (still.trans same)
    refine ⟨t, r :: rs, t', rs', ?_, ran', ?_, final⟩
    · exact Run.run_cons_eq_some.mpr ⟨u, r, rs, stepped, ran, rfl⟩
    · rw [answersTo_other (foreign b first), answers]

end Unwinding

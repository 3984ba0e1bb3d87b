import Mathlib.Init

/-! Procedures with a state and a result, which may throw and may get stuck. What a caller may
rely on is a postcondition: a procedure that ensures one returns with it or throws. -/
namespace Throwing

abbrev Procedure (σ ε α : Type) := StateT σ (ExceptT ε Option) α

variable {σ ε α β : Type}

namespace Procedure

def stuck : Procedure σ ε α := fun _ => ExceptT.mk none

def ofExcept (result : Except ε α) : Procedure σ ε α := fun s =>
  ExceptT.mk (some (result.map fun a => (a, s)))

def ofOption (next : σ → Option σ) : Procedure σ ε Unit := fun s =>
  ExceptT.mk ((next s).map fun t => .ok ((), t))

theorem run_bind (p : Procedure σ ε α) (f : α → Procedure σ ε β) (s : σ) :
    ((p >>= f) s).run = (p s).run.bind fun
      | .ok (a, t) => (f a t).run
      | .error e => some (.error e) := by
  change (p s >>= fun (a, t) => f a t).run = _
  rw [ExceptT.run_bind]
  refine congrArg (Option.bind (p s).run) (funext fun result => ?_)
  match result with
  | .error e => rfl
  | .ok (a, t) => rfl

def Returns (p : Procedure σ ε α) (s : σ) (a : α) (t : σ) : Prop :=
  (p s).run = some (.ok (a, t))

section Returns

variable {p : Procedure σ ε α} {f : α → Procedure σ ε β} {s t u : σ} {a b : α}

theorem Returns.unique (first : p.Returns s a t) (second : p.Returns s b u) : a = b ∧ t = u :=
  Prod.mk.inj (Except.ok.inj (Option.some.inj (first.symm.trans second)))

theorem returns_pure : (pure a : Procedure σ ε α).Returns s a s := rfl

theorem returns_ofExcept {result : Except ε α} (ended : result = .ok a) :
    (ofExcept result : Procedure σ ε α).Returns s a s := by
  rw [ended]
  rfl

theorem returns_ofOption {next : σ → Option σ} (found : next s = some t) :
    (ofOption next : Procedure σ ε Unit).Returns s () t := by
  unfold Returns ofOption
  rw [found]
  rfl

theorem Returns.bind {b : β} (first : p.Returns s a t) (second : (f a).Returns t b u) :
    (p >>= f).Returns s b u := by
  unfold Returns at first
  rw [Returns, run_bind, first]
  exact second

theorem returns_get_bind {f : σ → Procedure σ ε β} {b : β} (returned : (f s).Returns s b u) :
    (get >>= f).Returns s b u :=
  Returns.bind (a := s) (t := s) rfl returned

end Returns

/-- The procedure throws, or returns with `post`. -/
def Ensures (p : Procedure σ ε α) (s : σ) (post : α → σ → Prop) : Prop :=
  (∃ e, (p s).run = some (.error e)) ∨ ∃ a t, p.Returns s a t ∧ post a t

section Ensures

variable {p : Procedure σ ε α} {f : α → Procedure σ ε β} {s t : σ} {a : α} {post : α → σ → Prop}

theorem Ensures.returned (ensured : p.Ensures s post) (returned : p.Returns s a t) : post a t := by
  obtain ⟨e, thrown⟩ | ⟨a', t', returned', holds⟩ := ensured
  · cases Option.some.inj (thrown.symm.trans returned)
  · obtain ⟨rfl, rfl⟩ := returned.unique returned'
    exact holds

theorem Ensures.mono (ensured : p.Ensures s post) {weaker : α → σ → Prop}
    (weakens : ∀ a t, post a t → weaker a t) : p.Ensures s weaker := by
  obtain thrown | ⟨a, t, returned, holds⟩ := ensured
  · exact .inl thrown
  · exact .inr ⟨a, t, returned, weakens a t holds⟩

theorem ensures_pure (holds : post a s) : (pure a : Procedure σ ε α).Ensures s post :=
  .inr ⟨a, s, rfl, holds⟩

theorem ensures_throw (e : ε) : (throw e : Procedure σ ε α).Ensures s post := .inl ⟨e, rfl⟩

theorem ensures_ofExcept {result : Except ε α} (holds : ∀ a, result = .ok a → post a s) :
    (ofExcept result : Procedure σ ε α).Ensures s post := by
  cases result with
  | error e => exact .inl ⟨e, rfl⟩
  | ok a => exact .inr ⟨a, s, rfl, holds a rfl⟩

theorem ensures_ofOption {next : σ → Option σ} {post : Unit → σ → Prop}
    (holds : ∃ t, next s = some t ∧ post () t) :
    (ofOption next : Procedure σ ε Unit).Ensures s post := by
  obtain ⟨t, found, holds⟩ := holds
  exact .inr ⟨(), t, returns_ofOption found, holds⟩

/-- What the first procedure ensures is what the second one starts with. -/
theorem Ensures.bind {post : β → σ → Prop} (ensured : p.Ensures s fun a t => (f a).Ensures t post) :
    (p >>= f).Ensures s post := by
  obtain ⟨e, thrown⟩ | ⟨a, t, returned, ⟨e, thrown⟩ | ⟨b, u, returned', holds⟩⟩ := ensured
  · refine .inl ⟨e, ?_⟩
    rw [run_bind, thrown]
    rfl
  · refine .inl ⟨e, ?_⟩
    rw [run_bind, returned]
    exact thrown
  · exact .inr ⟨b, u, returned.bind returned', holds⟩

theorem ensures_get_bind {f : σ → Procedure σ ε β} {post : β → σ → Prop}
    (ensured : (f s).Ensures s post) : (get >>= f).Ensures s post :=
  Ensures.bind (.inr ⟨s, s, rfl, ensured⟩)

end Ensures

end Procedure

end Throwing

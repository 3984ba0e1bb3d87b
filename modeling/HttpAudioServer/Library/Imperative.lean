import Mathlib.Data.List.Basic

/-! Loops of an imperative program that may throw. A command is a function from a
state to an `Outcome`; a loop is run with fuel and says so when the fuel ends first.
The rules below are total: a loop that satisfies them has really left its condition. -/
namespace Imperative

/-- How a command ends: normally, with an exception that keeps the state it had
reached, or not within its fuel. -/
inductive Outcome (ε σ : Type) where
  | done (s : σ)
  | thrown (e : ε) (s : σ)
  | running

namespace Outcome

variable {ε σ τ : Type}

def bind (o : Outcome ε σ) (f : σ → Outcome ε σ) : Outcome ε σ :=
  match o with
  | .done s => f s
  | .thrown e s => .thrown e s
  | .running => .running

def map (f : σ → τ) : Outcome ε σ → Outcome ε τ
  | .done s => .done (f s)
  | .thrown e s => .thrown e (f s)
  | .running => .running

/-- The outcome of a command that has no exception to throw. -/
def result? : Outcome Empty σ → Option σ
  | .done s => some s
  | .thrown e _ => e.elim
  | .running => none

/-- `Q` holds on normal exit and `E` on exceptional exit; running on is excluded. -/
def Ends (Q : σ → Prop) (E : ε → σ → Prop) : Outcome ε σ → Prop
  | .done s => Q s
  | .thrown e s => E e s
  | .running => False

@[simp] theorem done_bind (s : σ) (f : σ → Outcome ε σ) : (Outcome.done s).bind f = f s := rfl

@[simp] theorem thrown_bind (e : ε) (s : σ) (f : σ → Outcome ε σ) :
    (Outcome.thrown e s).bind f = .thrown e s := rfl

@[simp] theorem done_map (s : σ) (f : σ → τ) : (Outcome.done s : Outcome ε σ).map f = .done (f s) :=
  rfl

@[simp] theorem thrown_map (e : ε) (s : σ) (f : σ → τ) :
    (Outcome.thrown e s).map f = .thrown e (f s) := rfl

@[simp] theorem done_result (s : σ) : (Outcome.done s : Outcome Empty σ).result? = some s := rfl

@[simp] theorem ends_done (Q : σ → Prop) (E : ε → σ → Prop) (s : σ) :
    (Outcome.done s).Ends Q E ↔ Q s := Iff.rfl

@[simp] theorem ends_thrown (Q : σ → Prop) (E : ε → σ → Prop) (e : ε) (s : σ) :
    (Outcome.thrown e s).Ends Q E ↔ E e s := Iff.rfl

theorem map_map {υ : Type} (f : σ → τ) (g : τ → υ) (o : Outcome ε σ) :
    (o.map f).map g = o.map fun s => g (f s) := by
  cases o <;> rfl

theorem map_comm {υ τ' : Type} {f : σ → τ} {g : τ → υ} {f' : σ → τ'} {g' : τ' → υ}
    (comm : ∀ s, g (f s) = g' (f' s)) (o : Outcome ε σ) : (o.map f).map g = (o.map f').map g' := by
  cases o with
  | done s => exact congrArg Outcome.done (comm s)
  | thrown e s => exact congrArg (Outcome.thrown e) (comm s)
  | running => rfl

theorem map_bind_comm {f : σ → τ} {first : Outcome ε σ} {second : σ → Outcome ε σ}
    {second' : τ → Outcome ε τ} (comm : ∀ s, second' (f s) = (second s).map f) :
    (first.map f).bind second' = (first.bind second).map f := by
  cases first with
  | done s => exact comm s
  | thrown e s => rfl
  | running => rfl

theorem Ends.mono {Q Q' : σ → Prop} {E E' : ε → σ → Prop} {o : Outcome ε σ}
    (h : o.Ends Q E) (normal : ∀ s, Q s → Q' s) (failed : ∀ e s, E e s → E' e s) :
    o.Ends Q' E' := by
  cases o with
  | done s => exact normal s h
  | thrown e s => exact failed e s h
  | running => exact h

theorem Ends.bind {P Q : σ → Prop} {E : ε → σ → Prop} {o : Outcome ε σ} {f : σ → Outcome ε σ}
    (first : o.Ends P E) (second : ∀ s, P s → (f s).Ends Q E) : (o.bind f).Ends Q E := by
  cases o with
  | done s => exact second s first
  | thrown e s => exact first
  | running => exact first

theorem Ends.done {Q : σ → Prop} {o : Outcome ε σ} (h : o.Ends Q fun _ _ => False) :
    ∃ s, o = .done s ∧ Q s := by
  cases o with
  | done s => exact ⟨s, rfl, h⟩
  | thrown e s => exact h.elim
  | running => exact h.elim

theorem Ends.result {Q : σ → Prop} {E : Empty → σ → Prop} {o : Outcome Empty σ}
    (h : o.Ends Q E) : ∃ s, o.result? = some s ∧ Q s := by
  cases o with
  | done s => exact ⟨s, rfl, h⟩
  | thrown e s => exact e.elim
  | running => exact h.elim

end Outcome

open Outcome

variable {ε σ : Type}

def whileLoop (cond : σ → Bool) (body : σ → Outcome ε σ) : Nat → σ → Outcome ε σ
  | 0, s => if cond s then .running else .done s
  | fuel + 1, s => if cond s then (body s).bind (whileLoop cond body fuel) else .done s

def doWhile (cond : σ → Bool) (body : σ → Outcome ε σ) (fuel : Nat) (s : σ) : Outcome ε σ :=
  (body s).bind (whileLoop cond body fuel)

theorem whileLoop_exit (cond : σ → Bool) (body : σ → Outcome ε σ) (fuel : Nat) (s : σ)
    (stop : cond s = false) : whileLoop cond body fuel s = .done s := by
  cases fuel <;> simp [whileLoop, stop]

theorem whileLoop_step (cond : σ → Bool) (body : σ → Outcome ε σ) (fuel : Nat) (s : σ)
    (go : cond s = true) :
    whileLoop cond body (fuel + 1) s = (body s).bind (whileLoop cond body fuel) := by
  simp [whileLoop, go]

theorem whileLoop_map {τ : Type} {f : σ → τ} {cond : σ → Bool} {cond' : τ → Bool}
    {body : σ → Outcome ε σ} {body' : τ → Outcome ε τ} (conds : ∀ s, cond' (f s) = cond s)
    (bodies : ∀ s, body' (f s) = (body s).map f) (fuel : Nat) (s : σ) :
    whileLoop cond' body' fuel (f s) = (whileLoop cond body fuel s).map f := by
  induction fuel generalizing s with
  | zero =>
    rw [whileLoop, whileLoop, conds]
    split <;> rfl
  | succ fuel ih =>
    rw [whileLoop, whileLoop, conds, bodies]
    split
    · exact map_bind_comm ih
    · rfl

/-- The states in which a round of a loop begins, from one in which the first does. -/
inductive Rounds (cond : σ → Bool) (body : σ → Outcome ε σ) (start : σ) : σ → Prop where
  | first : Rounds cond body start start
  | next {s t : σ} (before : Rounds cond body start s) (ends : body s = .done t)
      (again : cond t = true) : Rounds cond body start t

section Rules

variable {cond : σ → Bool} {body : σ → Outcome ε σ}

/-- The loop rule: an invariant, a variant that each round lowers, and fuel for it. -/
theorem whileLoop_ends (inv : σ → Prop) (variant : σ → Nat) (E : ε → σ → Prop)
    (positive : ∀ s, inv s → cond s = true → 0 < variant s)
    (round : ∀ s, inv s → cond s = true →
      (body s).Ends (fun t => inv t ∧ variant t < variant s) E)
    (fuel : Nat) (s : σ) (start : inv s) (enough : variant s ≤ fuel) :
    (whileLoop cond body fuel s).Ends (fun t => inv t ∧ cond t = false) E := by
  induction fuel generalizing s with
  | zero =>
    have stop : cond s = false := by
      by_contra go
      have left := positive s start (by simpa using go)
      omega
    rw [whileLoop_exit cond body 0 s stop]
    exact ⟨start, stop⟩
  | succ fuel ih =>
    by_cases go : cond s = true
    · rw [whileLoop_step cond body fuel s go]
      exact (round s start go).bind fun t ht => ih t ht.1 (by omega)
    · have stop : cond s = false := by simpa using go
      rw [whileLoop_exit cond body _ s stop]
      exact ⟨start, stop⟩

theorem doWhile_ends (inv : σ → Prop) (variant : σ → Nat) (E : ε → σ → Prop)
    (positive : ∀ s, inv s → cond s = true → 0 < variant s)
    (round : ∀ s, inv s → cond s = true →
      (body s).Ends (fun t => inv t ∧ variant t < variant s) E)
    (fuel : Nat) (s : σ) (first : (body s).Ends (fun t => inv t ∧ variant t ≤ fuel) E) :
    (doWhile cond body fuel s).Ends (fun t => inv t ∧ cond t = false) E :=
  first.bind fun t ht => whileLoop_ends inv variant E positive round fuel t ht.1 ht.2

theorem Rounds.keep (inv : σ → Prop) {start s : σ} (E : ε → σ → Prop)
    (rounds : Rounds cond body start s) (initial : inv start)
    (round : ∀ s, inv s → (body s).Ends (fun t => cond t = true → inv t) E) : inv s := by
  induction rounds with
  | first => exact initial
  | next _ ends again ih =>
    have kept := round _ ih
    rw [ends] at kept
    exact kept again

end Rules

end Imperative

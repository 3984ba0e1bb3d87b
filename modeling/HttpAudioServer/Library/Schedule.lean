import Mathlib.Logic.Basic

/-! Parties that take steps in any order. A system that can always go on until it is finished,
and whose steps use up a rank, finishes whatever the order is. -/
namespace Schedule

variable {σ : Type} (step : σ → σ → Prop)

/-- A run of so many steps. -/
inductive Path : Nat → σ → σ → Prop where
  | refl (s : σ) : Path 0 s s
  | next {n : Nat} {s t u : σ} (before : Path n s t) (last : step t u) : Path (n + 1) s u

/-- Nobody can take a step. -/
def Stuck (s : σ) : Prop := ∀ t, ¬ step s t

variable {step}

theorem Path.keep (inv : σ → Prop) (preserved : ∀ s t, inv s → step s t → inv t) {n : Nat} {s t : σ}
    (path : Path step n s t) (start : inv s) : inv t := by
  induction path with
  | refl s => exact start
  | next _ last ih => exact preserved _ _ (ih start) last

/-- Each step lowers the rank, so that a run is no longer than the rank of its first state. -/
theorem Path.bounded (rank : σ → Nat → Prop)
    (lowers : ∀ s t m, rank s m → step s t → ∃ m' < m, rank t m') {n : Nat} {s t : σ}
    (path : Path step n s t) {m : Nat} (start : rank s m) : ∃ m', n + m' ≤ m ∧ rank t m' := by
  induction path with
  | refl s => exact ⟨m, Nat.le_of_eq (Nat.zero_add m), start⟩
  | next _ last ih =>
    obtain ⟨m', within, reached⟩ := ih start
    obtain ⟨m'', lower, after⟩ := lowers _ _ m' reached last
    exact ⟨m'', by omega, after⟩

theorem Path.trans {n k : Nat} {s t u : σ} (first : Path step n s t) (second : Path step k t u) :
    Path step (n + k) s u := by
  induction second with
  | refl t => exact first
  | next _ last ih => exact (ih first).next last

/-- From a state with a rank there is a run to a state in which nobody can take a step. -/
theorem exists_stuck (rank : σ → Nat → Prop)
    (lowers : ∀ s t m, rank s m → step s t → ∃ m' < m, rank t m') {s : σ} {m : Nat}
    (start : rank s m) : ∃ n t, Path step n s t ∧ Stuck step t := by
  induction m using Nat.strongRecOn generalizing s with
  | ind m ih =>
    by_cases stuck : Stuck step s
    · exact ⟨0, s, .refl s, stuck⟩
    · obtain ⟨t, first⟩ := not_forall.mp stuck
      obtain ⟨m', lower, after⟩ := lowers s t m start (not_not.mp first)
      obtain ⟨n, u, path, stuck⟩ := ih m' lower after
      exact ⟨1 + n, u, ((Path.refl s).next (not_not.mp first)).trans path, stuck⟩

end Schedule

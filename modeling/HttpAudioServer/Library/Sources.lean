import Mathlib.Data.List.Basic

/-! Finite sources played one after the other and read on demand. `draw n` is what a
reader of the whole queue has to achieve: the first `n` elements of the concatenation,
with every source removed that turned out to be too short. -/
namespace Sources

variable {α : Type}

def draw : Nat → List (List α) → List α × List (List α)
  | _, [] => ([], [])
  | n, xs :: queue =>
    if n = 0 then ([], xs :: queue)
    else if xs.length < n then
      let later := draw (n - xs.length) queue
      (xs ++ later.1, later.2)
    else (xs.take n, xs.drop n :: queue)

@[simp] theorem draw_nil (n : Nat) : draw n ([] : List (List α)) = ([], []) := by
  cases n <;> rfl

@[simp] theorem draw_zero (queue : List (List α)) : draw 0 queue = ([], queue) := by
  cases queue <;> simp [draw]

theorem draw_short {n : Nat} {xs : List α} (queue : List (List α)) (short : xs.length < n) :
    draw n (xs :: queue) =
      (xs ++ (draw (n - xs.length) queue).1, (draw (n - xs.length) queue).2) := by
  have wanted : n ≠ 0 := by omega
  simp [draw, wanted, short]

theorem draw_long {n : Nat} {xs : List α} (queue : List (List α)) (wanted : 0 < n)
    (long : n ≤ xs.length) : draw n (xs :: queue) = (xs.take n, xs.drop n :: queue) := by
  have some_wanted : n ≠ 0 := by omega
  simp [draw, some_wanted, Nat.not_lt.mpr long]

theorem draw_exhausted {n : Nat} (queue : List (List α)) (wanted : 0 < n) :
    draw n ([] :: queue) = draw n queue := by
  rw [draw_short queue (by simpa using wanted)]
  simp

theorem draw_read {n : Nat} (xs : List α) (queue : List (List α)) (wanted : 0 < n) :
    draw n (xs :: queue) =
      (xs.take n ++ (draw (n - (xs.take n).length) (xs.drop n :: queue)).1,
        (draw (n - (xs.take n).length) (xs.drop n :: queue)).2) := by
  rcases Nat.lt_or_ge xs.length n with short | long
  · rw [draw_short queue short, List.take_of_length_le (Nat.le_of_lt short),
      List.drop_eq_nil_of_le (Nat.le_of_lt short), draw_exhausted queue (by omega)]
  · rw [draw_long queue wanted long, List.length_take, Nat.min_eq_left long, Nat.sub_self,
      draw_zero, List.append_nil]

theorem draw_fst (n : Nat) (queue : List (List α)) : (draw n queue).1 = queue.flatten.take n := by
  induction queue generalizing n with
  | nil => simp
  | cons xs queue ih =>
    rcases Nat.eq_zero_or_pos n with rfl | wanted
    · simp
    · rcases Nat.lt_or_ge xs.length n with short | long
      · rw [draw_short queue short, List.flatten_cons, List.take_append, ih,
          List.take_of_length_le (Nat.le_of_lt short)]
      · rw [draw_long queue wanted long, List.flatten_cons, List.take_append_of_le_length long]

theorem draw_flatten (n : Nat) (queue : List (List α)) :
    (draw n queue).1 ++ (draw n queue).2.flatten = queue.flatten := by
  induction queue generalizing n with
  | nil => simp
  | cons xs queue ih =>
    rcases Nat.eq_zero_or_pos n with rfl | wanted
    · simp
    · rcases Nat.lt_or_ge xs.length n with short | long
      · rw [draw_short queue short, List.append_assoc, ih, List.flatten_cons]
      · rw [draw_long queue wanted long, List.flatten_cons, ← List.append_assoc,
          List.take_append_drop, List.flatten_cons]

theorem draw_snd_eq_nil {n : Nat} (queue : List (List α)) (wanted : 0 < n) :
    (draw n queue).2 = [] ↔ queue.flatten.length < n := by
  induction queue generalizing n with
  | nil => simpa using wanted
  | cons xs queue ih =>
    rcases Nat.lt_or_ge xs.length n with short | long
    · rw [draw_short queue short, ih (by omega), List.flatten_cons, List.length_append]
      omega
    · rw [draw_long queue wanted long, List.flatten_cons, List.length_append]
      simp only [List.cons_ne_nil, false_iff]
      omega

end Sources

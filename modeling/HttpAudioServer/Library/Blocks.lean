import Mathlib.Data.List.Basic

/-! A list cut into consecutive blocks of one size, and what is left over. The laws
below say that cutting is incremental: it may stop anywhere, keep the rest and go on. -/
namespace Blocks

variable {α β : Type}

/-- The `k`-th slice of `size` elements, for as many whole slices as there are. -/
def blocks (size : Nat) (xs : List α) : List (List α) :=
  (List.range (xs.length / size)).map fun k => (xs.drop (k * size)).take size

def rest (size : Nat) (xs : List α) : List α :=
  xs.drop (xs.length / size * size)

theorem length_blocks (size : Nat) (xs : List α) :
    (blocks size xs).length = xs.length / size := by
  simp [blocks]

theorem length_rest (size : Nat) (xs : List α) : (rest size xs).length = xs.length % size := by
  have split := Nat.div_add_mod' xs.length size
  simp only [rest, List.length_drop]
  omega

theorem length_rest_lt {size : Nat} (positive : 0 < size) (xs : List α) :
    (rest size xs).length < size := by
  rw [length_rest]
  exact Nat.mod_lt _ positive

theorem blocks_of_lt {size : Nat} {xs : List α} (short : xs.length < size) :
    blocks size xs = [] := by
  simp [blocks, Nat.div_eq_of_lt short]

theorem rest_of_lt {size : Nat} {xs : List α} (short : xs.length < size) : rest size xs = xs := by
  simp [rest, Nat.div_eq_of_lt short]

theorem div_block {size n : Nat} (positive : 0 < size) : (size + n) / size = n / size + 1 := by
  rw [Nat.add_comm, Nat.add_div_right _ positive]

theorem blocks_cons {size : Nat} (positive : 0 < size) {b : List α} (whole : b.length = size)
    (xs : List α) : blocks size (b ++ xs) = b :: blocks size xs := by
  simp only [blocks, List.length_append, whole, div_block positive, List.range_succ_eq_map,
    List.map_cons, List.map_map]
  congr 1
  · simp [← whole]
  · apply List.map_congr_left
    intro k _
    have shift : (k + 1) * size = b.length + k * size := by
      rw [whole, Nat.succ_mul, Nat.add_comm]
    simp only [Function.comp, Nat.succ_eq_add_one, shift, List.drop_length_add_append]

theorem rest_cons {size : Nat} (positive : 0 < size) {b : List α} (whole : b.length = size)
    (xs : List α) : rest size (b ++ xs) = rest size xs := by
  simp only [rest, List.length_append, whole, div_block positive]
  have shift : (xs.length / size + 1) * size = b.length + xs.length / size * size := by
    rw [whole, Nat.succ_mul, Nat.add_comm]
  rw [shift, List.drop_length_add_append]

theorem blocks_nil {size : Nat} (positive : 0 < size) : blocks size ([] : List α) = [] :=
  blocks_of_lt (by simpa using positive)

theorem rest_nil {size : Nat} (positive : 0 < size) : rest size ([] : List α) = [] :=
  rest_of_lt (by simpa using positive)

theorem blocks_single {size : Nat} (positive : 0 < size) {b : List α} (whole : b.length = size) :
    blocks size b = [b] := by
  have cut := blocks_cons positive whole []
  rwa [List.append_nil, blocks_nil positive] at cut

theorem rest_single {size : Nat} (positive : 0 < size) {b : List α} (whole : b.length = size) :
    rest size b = [] := by
  have cut := rest_cons positive whole []
  rwa [List.append_nil, rest_nil positive] at cut

theorem blocks_flatten_append {size : Nat} (positive : 0 < size) (bs : List (List α))
    (whole : ∀ b ∈ bs, b.length = size) (xs : List α) :
    blocks size (bs.flatten ++ xs) = bs ++ blocks size xs := by
  induction bs with
  | nil => rfl
  | cons b bs ih =>
    have tail := ih fun c hc => whole c (List.mem_cons_of_mem _ hc)
    rw [List.flatten_cons, List.append_assoc, blocks_cons positive (whole b List.mem_cons_self),
      tail, List.cons_append]

theorem rest_flatten_append {size : Nat} (positive : 0 < size) (bs : List (List α))
    (whole : ∀ b ∈ bs, b.length = size) (xs : List α) :
    rest size (bs.flatten ++ xs) = rest size xs := by
  induction bs with
  | nil => rfl
  | cons b bs ih =>
    have tail := ih fun c hc => whole c (List.mem_cons_of_mem _ hc)
    rw [List.flatten_cons, List.append_assoc, rest_cons positive (whole b List.mem_cons_self), tail]

theorem length_of_mem_blocks {size : Nat} {xs b : List α} (member : b ∈ blocks size xs) :
    b.length = size := by
  simp only [blocks, List.mem_map, List.mem_range] at member
  obtain ⟨k, below, rfl⟩ := member
  have room : (k + 1) * size ≤ xs.length / size * size := Nat.mul_le_mul_right _ below
  have total := Nat.div_mul_le_self xs.length size
  have unfold_succ : (k + 1) * size = k * size + size := Nat.succ_mul k size
  simp only [List.length_take, List.length_drop]
  omega

theorem flatten_blocks_append_rest {size : Nat} (positive : 0 < size) (xs : List α) :
    (blocks size xs).flatten ++ rest size xs = xs := by
  induction h : xs.length / size generalizing xs with
  | zero =>
    have short : xs.length < size := (Nat.div_eq_zero_iff_lt positive).mp h
    simp [blocks_of_lt short, rest_of_lt short]
  | succ k ih =>
    have long : size ≤ xs.length := by
      by_contra short
      rw [Nat.div_eq_of_lt (by omega)] at h
      omega
    have whole : (xs.take size).length = size := by simp [long]
    have fewer : (xs.drop size).length / size = k := by
      have step := Nat.div_eq_sub_div positive long
      rw [List.length_drop]
      omega
    have tail := ih (xs.drop size) fewer
    calc (blocks size xs).flatten ++ rest size xs
        = (blocks size (xs.take size ++ xs.drop size)).flatten
            ++ rest size (xs.take size ++ xs.drop size) := by rw [List.take_append_drop]
      _ = xs.take size ++ ((blocks size (xs.drop size)).flatten ++ rest size (xs.drop size)) := by
          rw [blocks_cons positive whole, rest_cons positive whole, List.flatten_cons,
            List.append_assoc]
      _ = xs := by rw [tail, List.take_append_drop]

/-- Cutting may stop after `xs`, keep its rest, and go on with `ys`. -/
theorem blocks_append {size : Nat} (positive : 0 < size) (xs ys : List α) :
    blocks size (xs ++ ys) = blocks size xs ++ blocks size (rest size xs ++ ys) := by
  have cut := blocks_flatten_append positive (blocks size xs)
    (fun _ => length_of_mem_blocks) (rest size xs ++ ys)
  rwa [← List.append_assoc, flatten_blocks_append_rest positive] at cut

theorem rest_append {size : Nat} (positive : 0 < size) (xs ys : List α) :
    rest size (xs ++ ys) = rest size (rest size xs ++ ys) := by
  have cut := rest_flatten_append positive (blocks size xs)
    (fun _ => length_of_mem_blocks) (rest size xs ++ ys)
  rwa [← List.append_assoc, flatten_blocks_append_rest positive] at cut

/-- The blocks of `xs`, and a last one that is filled up. It is all filling when the blocks
leave no rest. -/
def framed (size : Nat) (filling : α) (xs : List α) : List (List α) :=
  blocks size xs ++ [rest size xs ++ List.replicate (size - (rest size xs).length) filling]

theorem succ_div_eq_ceil {n size : Nat} (positive : 0 < size) :
    n / size + 1 = (n + (size - 1)) / size ↔ n % size ≠ 0 := by
  have split := Nat.div_add_mod n size
  have short := Nat.mod_lt n positive
  have up : (n + (size - 1)) / size = n / size + (n % size + (size - 1)) / size := by
    conv_lhs => rw [← split, Nat.add_assoc, Nat.mul_add_div positive]
  rw [up]
  by_cases zero : n % size = 0
  · have none : (n % size + (size - 1)) / size = 0 := Nat.div_eq_of_lt (by omega)
    omega
  · have one : (n % size + (size - 1)) / size = 1 :=
      Nat.div_eq_of_lt_le (by omega) (by omega)
    omega

theorem flatten_framed {size : Nat} (positive : 0 < size) (filling : α) (xs : List α) :
    (framed size filling xs).flatten =
      xs ++ List.replicate (size - xs.length % size) filling := by
  rw [framed, List.flatten_append, List.flatten_singleton, ← List.append_assoc,
    flatten_blocks_append_rest positive, length_rest]

theorem length_of_mem_framed {size : Nat} (positive : 0 < size) {filling : α} {xs b : List α}
    (member : b ∈ framed size filling xs) : b.length = size := by
  rcases List.mem_append.mp member with block | last
  · exact length_of_mem_blocks block
  · obtain rfl := List.mem_singleton.mp last
    have short := length_rest_lt positive xs
    rw [List.length_append, List.length_replicate]
    omega

end Blocks

import Mathlib.Data.List.Basic

/-! Buffers written in place, and the little-endian representation of 32-bit words. -/
namespace Memory

section Buffer

variable {α : Type}

/-- `xs` stored into `buf` from position `pos` on, as a copy through an iterator does it. -/
def overwrite (buf : List α) (pos : Nat) (xs : List α) : List α :=
  buf.take pos ++ xs ++ buf.drop (pos + xs.length)

theorem length_overwrite {buf xs : List α} {pos : Nat} (fits : pos + xs.length ≤ buf.length) :
    (overwrite buf pos xs).length = buf.length := by
  simp only [overwrite, List.length_append, List.length_take, List.length_drop]
  omega

theorem take_overwrite {buf xs : List α} {pos : Nat} (fits : pos + xs.length ≤ buf.length) :
    (overwrite buf pos xs).take (pos + xs.length) = buf.take pos ++ xs := by
  have before : (buf.take pos ++ xs).length = pos + xs.length := by
    simp only [List.length_append, List.length_take]
    omega
  rw [overwrite, ← before, List.take_left]

theorem drop_overwrite {buf xs : List α} {pos k : Nat} (fits : pos + xs.length ≤ buf.length)
    (beyond : pos + xs.length ≤ k) : (overwrite buf pos xs).drop k = buf.drop k := by
  have before : (buf.take pos ++ xs).length = pos + xs.length := by
    simp only [List.length_append, List.length_take]
    omega
  obtain ⟨more, rfl⟩ := Nat.exists_eq_add_of_le beyond
  rw [overwrite, ← List.drop_drop, ← before, List.drop_left, before, List.drop_drop]

end Buffer

section LittleEndian

/-- The four bytes of `n` modulo `2^32`, lowest first. -/
def leBytes (n : Nat) : List UInt8 :=
  [UInt8.ofNat n, UInt8.ofNat (n / 256), UInt8.ofNat (n / 65536), UInt8.ofNat (n / 16777216)]

def leNat (bytes : List UInt8) : Nat :=
  bytes.foldr (fun b n => b.toNat + 256 * n) 0

@[simp] theorem length_leBytes (n : Nat) : (leBytes n).length = 4 := rfl

theorem leNat_leBytes (n : Nat) : leNat (leBytes n) = n % 4294967296 := by
  simp only [leNat, leBytes, List.foldr_cons, List.foldr_nil, UInt8.toNat_ofNat']
  omega

theorem leNat_leBytes_of_lt {n : Nat} (small : n < 4294967296) : leNat (leBytes n) = n := by
  rw [leNat_leBytes, Nat.mod_eq_of_lt small]

end LittleEndian

end Memory

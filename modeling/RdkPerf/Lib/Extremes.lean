import Mathlib

/-!
# Running extremes

A running minimum is kept in one variable: it starts at some value, and takes the lesser of itself
and each new one. Whatever the order the values come in, that is `foldr min`. The value it starts
at is harmless exactly when some value is at most that (`isLeast_foldr_min_iff`); a maximum is the
same in the order turned round.
-/

namespace Lib

variable {α : Type} [LinearOrder α] {a x : α} {xs : List α}

theorem foldr_min_comm (xs : List α) (a b : α) :
    xs.foldr min (min a b) = min (xs.foldr min a) b := by
  induction xs with
  | nil => rfl
  | cons x xs ih => rw [List.foldr_cons, ih, List.foldr_cons, min_assoc]

theorem foldr_max_comm (xs : List α) (a b : α) :
    xs.foldr max (max a b) = max (xs.foldr max a) b :=
  foldr_min_comm (α := αᵒᵈ) xs a b

/-- The value that comes last may as well have been the start. -/
theorem foldr_min_concat (xs : List α) (x a : α) :
    (xs ++ [x]).foldr min a = min (xs.foldr min a) x := by
  rw [List.foldr_append, List.foldr_cons, List.foldr_nil, min_comm, foldr_min_comm]

theorem foldr_max_concat (xs : List α) (x a : α) :
    (xs ++ [x]).foldr max a = max (xs.foldr max a) x :=
  foldr_min_concat (α := αᵒᵈ) xs x a

theorem foldr_min_le_start : xs.foldr min a ≤ a := by
  induction xs with
  | nil => exact le_rfl
  | cons x xs ih => exact (min_le_right x _).trans ih

theorem foldr_min_le_of_mem (hx : x ∈ xs) : xs.foldr min a ≤ x := by
  induction xs with
  | nil => exact absurd hx List.not_mem_nil
  | cons y xs ih =>
    rcases List.mem_cons.mp hx with rfl | hx
    · exact min_le_left x _
    · exact (min_le_right y _).trans (ih hx)

theorem le_foldr_max_of_mem (hx : x ∈ xs) : x ≤ xs.foldr max a :=
  foldr_min_le_of_mem (α := αᵒᵈ) hx

theorem foldr_min_mem : xs.foldr min a = a ∨ xs.foldr min a ∈ xs := by
  induction xs with
  | nil => exact Or.inl rfl
  | cons x xs ih =>
    rw [List.foldr_cons]
    rcases le_total x (xs.foldr min a) with hle | hle
    · rw [min_eq_left hle]
      exact Or.inr List.mem_cons_self
    · rw [min_eq_right hle]
      exact ih.imp_right (List.mem_cons_of_mem x)

/-- A running minimum is the least value exactly when the start is not below all of them. -/
theorem isLeast_foldr_min_iff : IsLeast {x | x ∈ xs} (xs.foldr min a) ↔ ∃ x ∈ xs, x ≤ a := by
  constructor
  · intro h
    exact ⟨_, h.1, foldr_min_le_start⟩
  · rintro ⟨x, hx, hle⟩
    refine ⟨?_, fun y hy => foldr_min_le_of_mem hy⟩
    have hcases : xs.foldr min a = a ∨ xs.foldr min a ∈ xs := foldr_min_mem
    rcases hcases with hstart | hmem
    · -- then the start is a value as well
      have hxa : x = a := le_antisymm hle (hstart ▸ foldr_min_le_of_mem hx)
      show xs.foldr min a ∈ xs
      rw [hstart, ← hxa]
      exact hx
    · exact hmem

theorem isGreatest_foldr_max_iff :
    IsGreatest {x | x ∈ xs} (xs.foldr max a) ↔ ∃ x ∈ xs, a ≤ x :=
  isLeast_foldr_min_iff (α := αᵒᵈ)

end Lib

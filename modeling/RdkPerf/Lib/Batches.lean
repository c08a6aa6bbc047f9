import Mathlib

/-!
# Batches

Items are kept until there are `size` of them. The next one closes the batch: it is not kept, and
nothing of the batch is. So the items come in rounds of `size + 1`.
-/

namespace Lib
namespace Batches

variable {α : Type} {size : Nat} {a : α} {as : List α}

def add (size : Nat) (batch : List α) (a : α) : List α :=
  if batch.length < size then batch ++ [a] else []

/-- What is kept after these items. -/
def kept (size : Nat) (as : List α) : List α := as.foldl (add size) []

theorem kept_concat : kept size (as ++ [a]) = add size (kept size as) a := List.foldl_concat ..

/-- A round is complete with its last item. -/
theorem dvd_succ_iff {n : Nat} : size + 1 ∣ n + 1 ↔ n % (size + 1) = size := by
  have hlt : n % (size + 1) < size + 1 := Nat.mod_lt n (Nat.succ_pos size)
  have hrounds : size + 1 ∣ (size + 1) * (n / (size + 1)) := Nat.dvd_mul_right _ _
  rw [← Nat.div_add_mod n (size + 1), Nat.add_assoc, Nat.dvd_add_right hrounds,
    Nat.div_add_mod n (size + 1)]
  constructor
  · intro h
    have hle := Nat.le_of_dvd (Nat.succ_pos _) h
    omega
  · intro h
    rw [h]

theorem length_drop_rounds (size : Nat) (as : List α) :
    (as.drop (as.length / (size + 1) * (size + 1))).length = as.length % (size + 1) := by
  rw [List.length_drop, Nat.mod_def, Nat.mul_comm]

/-- **What is kept are the items since the last complete round.** -/
theorem kept_eq_drop (size : Nat) (as : List α) :
    kept size as = as.drop (as.length / (size + 1) * (size + 1)) := by
  induction as using List.reverseRecOn with
  | nil => exact (List.drop_nil).symm
  | append_singleton as a ih =>
    have hlength : (kept size as).length = as.length % (size + 1) := by
      rw [ih, length_drop_rounds]
    have hlt : as.length % (size + 1) < size + 1 := Nat.mod_lt as.length (Nat.succ_pos size)
    rw [kept_concat, add, hlength, List.length_append, List.length_singleton, Nat.succ_div]
    by_cases hfull : as.length % (size + 1) = size
    · rw [if_neg (by omega), if_pos (dvd_succ_iff.mpr hfull)]
      have hend : (as.length / (size + 1) + 1) * (size + 1) = as.length + 1 := by
        have hsplit := Nat.div_add_mod' as.length (size + 1)
        rw [Nat.succ_mul]
        omega
      rw [hend, List.drop_of_length_le (by simp)]
    · rw [if_pos (by omega), if_neg (fun h => hfull (dvd_succ_iff.mp h)), Nat.add_zero, ih,
        List.drop_append_of_le_length (Nat.div_mul_le_self _ _)]

theorem length_kept (size : Nat) (as : List α) :
    (kept size as).length = as.length % (size + 1) := by
  rw [kept_eq_drop, length_drop_rounds]

/-- A full batch are the items just before. -/
theorem kept_of_full (h : as.length % (size + 1) = size) :
    kept size as = as.drop (as.length - size) := by
  have hsplit := Nat.div_add_mod' as.length (size + 1)
  rw [h] at hsplit
  rw [kept_eq_drop, ← Nat.eq_sub_of_add_eq hsplit]

/-- A batch is closed as soon as there are more items than fit into one. -/
theorem exists_full_iff :
    (∃ pre a post, as = pre ++ a :: post ∧ pre.length % (size + 1) = size) ↔ size < as.length := by
  constructor
  · rintro ⟨pre, a, post, rfl, hfull⟩
    have hle := Nat.mod_le pre.length (size + 1)
    rw [List.length_append, List.length_cons]
    omega
  · intro hlong
    refine ⟨as.take size, as[size], as.drop (size + 1), ?_, ?_⟩
    · rw [List.getElem_cons_drop, List.take_append_drop]
    · rw [List.length_take, Nat.min_eq_left (Nat.le_of_lt hlong)]
      exact Nat.mod_eq_of_lt (Nat.lt_succ_self size)

end Batches
end Lib

import Mathlib

/-!
# Stores: an explicit set of live objects

A `Store` is what `new` and `delete` act on: a partial map from addresses to objects and the
address the next allocation takes. Addresses are handed out in increasing order and never
twice, so a pointer to a deleted object stays a pointer to nothing — which is what makes
*dangling* a property of the state instead of a guess about what the allocator did next.

The one invariant (`fresh`: nothing lives at or beyond the allocation frontier) is a field, so
no operation below has a side condition and no later proof has to carry it.
-/

namespace Lib

/-- Addressed objects of type `α`, and the first address not handed out yet. -/
structure Store (α : Type) where
  cell : Nat → Option α
  next : Nat
  fresh : ∀ p, next ≤ p → cell p = none

namespace Store

variable {α : Type}

def empty : Store α := ⟨fun _ => none, 0, fun _ _ => rfl⟩

/-- Read through a pointer: `none` when nothing lives there. -/
def get (s : Store α) (p : Nat) : Option α := s.cell p

/-- `new`: the object goes to `s.next`, and the frontier moves past it. -/
def alloc (s : Store α) (a : α) : Store α where
  cell p := if p = s.next then some a else s.cell p
  next := s.next + 1
  fresh p hp := by rw [if_neg (by omega)]; exact s.fresh p (by omega)

/-- Update in place; a dead cell stays dead. -/
def modify (s : Store α) (p : Nat) (f : α → α) : Store α where
  cell q := if q = p then (s.cell q).map f else s.cell q
  next := s.next
  fresh q hq := by rw [s.fresh q hq]; simp

/-- `delete`: the cell is dead from now on. -/
def free (s : Store α) (p : Nat) : Store α where
  cell q := if q = p then none else s.cell q
  next := s.next
  fresh q hq := by rw [s.fresh q hq]; simp

/-- Two stores that read the same and allocate the same are the same store. -/
@[ext] theorem ext {s s' : Store α} (hget : ∀ p, s.get p = s'.get p) (hnext : s.next = s'.next) :
    s = s' := by
  cases s; cases s'
  simp only [get] at hget
  obtain rfl := funext hget
  obtain rfl := hnext
  rfl

@[simp] theorem get_empty (p : Nat) : (empty : Store α).get p = none := rfl

@[simp] theorem get_alloc (s : Store α) (a : α) (p : Nat) :
    (s.alloc a).get p = if p = s.next then some a else s.get p := rfl

@[simp] theorem get_modify (s : Store α) (p : Nat) (f : α → α) (q : Nat) :
    (s.modify p f).get q = if q = p then (s.get q).map f else s.get q := rfl

@[simp] theorem get_free (s : Store α) (p q : Nat) :
    (s.free p).get q = if q = p then none else s.get q := rfl

@[simp] theorem next_alloc (s : Store α) (a : α) : (s.alloc a).next = s.next + 1 := rfl

/-- What is live was allocated. -/
theorem lt_next {s : Store α} {p : Nat} {a : α} (h : s.get p = some a) : p < s.next := by
  by_contra hp
  rw [get, s.fresh p (by omega)] at h
  exact absurd h (by simp)

/-- Nothing lives at the frontier. -/
@[simp] theorem get_next (s : Store α) : s.get s.next = none := s.fresh _ (Nat.le_refl _)

/-- A live object is not the one the next allocation creates. -/
theorem ne_next {s : Store α} {p : Nat} {a : α} (h : s.get p = some a) : p ≠ s.next :=
  Nat.ne_of_lt (lt_next h)

/-- A modification that changes nothing at the one cell it touches changes nothing. -/
theorem modify_eq_self {s : Store α} {p : Nat} {f : α → α}
    (h : ∀ a, s.get p = some a → f a = a) : s.modify p f = s := by
  refine Store.ext (fun q => ?_) rfl
  rw [get_modify]
  split
  · next hq =>
    subst hq
    cases ha : s.get q with
    | none => rfl
    | some a => simp [h a ha]
  · rfl

end Store
end Lib

import RdkPerf.Lib.Fold
import RdkPerf.Lib.Store

/-!
# Two runs side by side

A program and a variant of it go through the same steps on states that differ. They agree as long
as related states lead to related states, or to the same fault: the rules below carry that through a
sequence and through a loop, and through a store object by object. What a relation must keep is left
to whoever states it, so the same walk over the program serves for every pair of variants.
-/

namespace Lib

variable {φ σ τ σ' τ' ε α β : Type}

/-- Two outcomes that agree: related results, or the same fault. -/
inductive Outcomes (R : σ → τ → Prop) : Except φ σ → Except φ τ → Prop
  | ok {a : σ} {b : τ} (h : R a b) : Outcomes R (.ok a) (.ok b)
  | error (e : φ) : Outcomes R (.error e) (.error e)

namespace Outcomes

variable {R : σ → τ → Prop} {S : σ' → τ' → Prop} {x : Except φ σ} {y : Except φ τ}

/-- In sequence. -/
theorem bind {f : σ → Except φ σ'} {g : τ → Except φ τ'} (h : Outcomes R x y)
    (hf : ∀ a b, R a b → Outcomes S (f a) (g b)) : Outcomes S (x >>= f) (y >>= g) := by
  cases h with
  | ok h => exact hf _ _ h
  | error e => exact .error e

/-- After what is the same on both sides. -/
theorem bind_same {f : σ → Except φ σ'} {g : σ → Except φ τ'} (x : Except φ σ)
    (hf : ∀ a, Outcomes S (f a) (g a)) : Outcomes S (x >>= f) (x >>= g) := by
  cases x with
  | ok a => exact hf a
  | error e => exact .error e

/-- In a loop. -/
theorem foldlM {f : σ → ε → Except φ σ} {g : τ → ε → Except φ τ}
    (hf : ∀ a b x, R a b → Outcomes R (f a x) (g b x)) (l : List ε) {a : σ} {b : τ} (h : R a b) :
    Outcomes R (l.foldlM f a) (l.foldlM g b) := by
  induction l generalizing a b with
  | nil => exact .ok h
  | cons x l ih =>
    rw [List.foldlM_cons, List.foldlM_cons]
    exact (hf a b x h).bind fun _ _ h => ih h

theorem exists_of_ok {a : σ} (h : Outcomes R (.ok a) y) : ∃ b, y = .ok b ∧ R a b := by
  cases h with
  | ok h => exact ⟨_, rfl, h⟩

/-- Where the relation is a function the second outcome is the image of the first. -/
theorem eq_map {e : σ → τ} (h : Outcomes R x y) (he : ∀ a b, R a b → b = e a) : y = e <$> x := by
  cases h with
  | ok h => exact congrArg _ (he _ _ h)
  | error e => rfl

end Outcomes

namespace Store

/-- Every object, seen through `f`. -/
def map (f : α → β) (s : Store α) : Store β where
  cell p := (s.cell p).map f
  next := s.next
  fresh p hp := by rw [s.fresh p hp]; rfl

theorem get_map (f : α → β) (s : Store α) (p : Nat) : (s.map f).get p = (s.get p).map f := rfl

/-- Related objects at the same addresses. -/
structure Related (R : α → β → Prop) (s : Store α) (s' : Store β) : Prop where
  next : s'.next = s.next
  get : ∀ p, Option.Rel R (s.get p) (s'.get p)

namespace Related

variable {R : α → β → Prop} {s : Store α} {s' : Store β}

theorem empty : Related R .empty .empty := ⟨rfl, fun _ => .none⟩

theorem alloc (h : Related R s s') {a : α} {b : β} (hab : R a b) :
    Related R (s.alloc a) (s'.alloc b) := by
  refine ⟨congrArg (· + 1) h.next, fun p => ?_⟩
  rw [get_alloc, get_alloc, h.next]
  split
  · exact .some hab
  · exact h.get p

theorem free (h : Related R s s') (p : Nat) : Related R (s.free p) (s'.free p) := by
  refine ⟨h.next, fun q => ?_⟩
  rw [get_free, get_free]
  split
  · exact .none
  · exact h.get q

theorem modify (h : Related R s s') (p : Nat) {f : α → α} {g : β → β}
    (hfg : ∀ a b, R a b → R (f a) (g b)) : Related R (s.modify p f) (s'.modify p g) := by
  refine ⟨h.next, fun q => ?_⟩
  rw [get_modify, get_modify]
  have hq := h.get q
  generalize s.get q = o, s'.get q = o' at hq ⊢
  split
  · cases hq with
    | some hab => exact .some (hfg _ _ hab)
    | none => exact .none
  · exact hq

/-- Where related objects look the same, so do the stores. -/
theorem map_eq {γ : Type} {f : α → γ} {g : β → γ} (h : Related R s s')
    (hfg : ∀ a b, R a b → g b = f a) : s'.map g = s.map f := by
  refine Store.ext (fun p => ?_) h.next
  rw [get_map, get_map]
  have hp := h.get p
  generalize s.get p = o, s'.get p = o' at hp ⊢
  cases hp with
  | some hab => exact congrArg some (hfg _ _ hab)
  | none => rfl

/-- Where the relation is a function the second store is the image of the first. -/
theorem eq_map {f : α → β} (h : Related R s s') (hf : ∀ a b, R a b → b = f a) : s' = s.map f := by
  refine Store.ext (fun p => ?_) h.next
  rw [get_map]
  have hp := h.get p
  generalize s.get p = o, s'.get p = o' at hp ⊢
  cases hp with
  | some hab => exact congrArg some (hf _ _ hab)
  | none => rfl

end Related
end Store
end Lib

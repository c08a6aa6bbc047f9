import RdkPerf.Lib.Fold

/-!
# Code with a recursive lock

`Code` is what a thread has to do: actions on a shared state, with a lock taken and given back in
between. The lock may be taken again by who has it.

A call that takes the lock first, acts only while it has it and is over when it gives it back is a
section (`Code.IsSection`). Whether code is one can be read off its parts: what gives back what it
takes (`Code.Balanced`) is a section once it is put under the lock.
-/

namespace Lib

/-- Code over a shared state `σ`, with faults in `φ`. -/
inductive Code (σ φ α : Type) : Type 1 where
  | ret (a : α)
  | act {β : Type} (f : σ → Except φ (β × σ)) (k : β → Code σ φ α)
  | enter (k : Code σ φ α)
  | leave (k : Code σ φ α)

namespace Code

variable {σ φ α β : Type}

def bind : Code σ φ α → (α → Code σ φ β) → Code σ φ β
  | .ret a, g => g a
  | .act f k, g => .act f fun b => (k b).bind g
  | .enter k, g => .enter (k.bind g)
  | .leave k, g => .leave (k.bind g)

instance : Monad (Code σ φ) where
  pure := .ret
  bind := .bind

/-- One action. -/
def atomic (f : σ → Except φ (α × σ)) : Code σ φ α := .act f .ret

/-- `c` with the lock held: what a guard object does from its constructor to its destructor. -/
def locked (c : Code σ φ α) : Code σ φ α := .enter (c.bind fun a => .leave (.ret a))

/-- What the code does with nobody in its way. -/
def run : Code σ φ α → σ → Except φ (α × σ)
  | .ret a, s => .ok (a, s)
  | .act f k, s => f s >>= fun bs => (k bs.1).run bs.2
  | .enter k, s => k.run s
  | .leave k, s => k.run s

@[simp] theorem run_pure (a : α) (s : σ) : (pure a : Code σ φ α).run s = .ok (a, s) := rfl

@[simp] theorem run_atomic (f : σ → Except φ (α × σ)) (s : σ) : (atomic f).run s = f s := by
  show (f s >>= fun bs => Except.ok (bs.1, bs.2)) = f s
  cases f s <;> rfl

@[simp] theorem run_bind (c : Code σ φ α) (g : α → Code σ φ β) (s : σ) :
    (c >>= g).run s = c.run s >>= fun as => (g as.1).run as.2 := by
  show (c.bind g).run s = _
  induction c generalizing s with
  | ret a => rfl
  | act f k ih =>
    show (f s >>= fun bs => ((k bs.1).bind g).run bs.2) =
      (f s >>= fun bs => (k bs.1).run bs.2) >>= _
    cases f s with
    | error e => rfl
    | ok bs => exact ih bs.1 bs.2
  | enter k ih => exact ih s
  | leave k ih => exact ih s

@[simp] theorem run_locked (c : Code σ φ α) (s : σ) : (locked c).run s = c.run s := by
  show (c >>= fun a => Code.leave (.ret a)).run s = _
  rw [run_bind]
  cases c.run s <;> rfl

/-! ## Sections -/

/-- Code that holds the lock `n` times: it acts while it does, gives the lock back as often, and is
    over when it has. -/
def Guarded : Code σ φ α → Nat → Prop
  | .ret _, n => n = 0
  | .act _ k, n => 0 < n ∧ ∀ b, (k b).Guarded n
  | .enter k, n => 0 < n ∧ k.Guarded (n + 1)
  | .leave k, n => 0 < n ∧ k.Guarded (n - 1)

theorem Guarded.eq_ret {c : Code σ φ Unit} (h : c.Guarded 0) : c = .ret () := by
  cases c with
  | ret a => rfl
  | act f k => exact absurd h.1 (Nat.lt_irrefl 0)
  | enter k => exact absurd h.1 (Nat.lt_irrefl 0)
  | leave k => exact absurd h.1 (Nat.lt_irrefl 0)

/-- Code that takes the lock and is guarded from there on. -/
def IsSection (c : Code σ φ α) : Prop := ∃ k, c = .enter k ∧ k.Guarded 1

/-- Code that gives back what it takes. -/
def Balanced (c : Code σ φ α) : Prop :=
  ∀ (β : Type) (n : Nat) (g : α → Code σ φ β), (∀ a, (g a).Guarded (n + 1)) →
    (c.bind g).Guarded (n + 1)

theorem balanced_pure (a : α) : (pure a : Code σ φ α).Balanced :=
  fun _ _ _ hg => hg a

theorem balanced_atomic (f : σ → Except φ (α × σ)) : (atomic f).Balanced :=
  fun _ n _ hg => ⟨Nat.succ_pos n, hg⟩

theorem bind_assoc (c : Code σ φ α) {γ : Type} (g : α → Code σ φ β) (h : β → Code σ φ γ) :
    (c.bind g).bind h = c.bind fun a => (g a).bind h := by
  induction c with
  | ret a => rfl
  | act f k ih => exact congrArg _ (funext ih)
  | enter k ih => exact congrArg _ ih
  | leave k ih => exact congrArg _ ih

theorem Balanced.bind {c : Code σ φ α} {g : α → Code σ φ β} (hc : c.Balanced)
    (hg : ∀ a, (g a).Balanced) : (c >>= g).Balanced := by
  intro γ n h hh
  show ((c.bind g).bind h).Guarded (n + 1)
  rw [bind_assoc]
  exact hc γ n _ fun a => hg a γ n h hh

theorem balanced_locked {c : Code σ φ α} (hc : c.Balanced) : (locked c).Balanced := by
  intro β n g hg
  show (Code.enter ((c.bind fun a => .leave (.ret a)).bind g)).Guarded (n + 1)
  rw [bind_assoc]
  exact ⟨Nat.succ_pos n, hc β (n + 1) _ fun a => ⟨Nat.succ_pos _, hg a⟩⟩

theorem Balanced.isSection {c : Code σ φ α} (hc : c.Balanced) : (locked c).IsSection :=
  ⟨_, rfl, hc α 0 _ fun _ => ⟨Nat.one_pos, rfl⟩⟩

end Code

end Lib

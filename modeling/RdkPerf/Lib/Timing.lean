import Mathlib

/-!
# Times along nested calls

Calls are entered and left one inside the other, and each is timed by two readings of a clock that
never goes back. A call is known by its path, the names of the calls around it, innermost first.
`ended` lists the calls that have ended, each with how long it took; `started` the ones that are
open, innermost first, each with the reading at its start.

What makes the times add up is an account kept at every moment, not only when a call ends: count
an open call with the time it has run so far. Then at each path the calls one level below have
taken no more than the calls at the path, and those at the top no more than has passed at all
(`Accounts`). Each of the four things that can happen keeps it; ending a call only moves its time
from the open side to the ended one.
-/

namespace Lib

variable {K : Type} [DecidableEq K]

/-- How long the calls at `π` took that have ended. -/
def timeAt (π : List K) : List (List K × Nat) → Nat
  | [] => 0
  | (σ, d) :: ended => if σ = π then d + timeAt π ended else timeAt π ended

/-- … and those one level below it. -/
def timeBelow (π : List K) : List (List K × Nat) → Nat
  | [] => 0
  | ([], _) :: ended => timeBelow π ended
  | (_ :: σ, d) :: ended => if σ = π then d + timeBelow π ended else timeBelow π ended

/-- How long the call that is open at `π` has run. -/
def openAt (now : Nat) (π : List K) : List (K × Nat) → Nat
  | [] => 0
  | call :: started =>
    if (call :: started).map Prod.fst = π then now - call.2 else openAt now π started

/-- … and the one that is open one level below it. -/
def openBelow (now : Nat) (π : List K) : List (K × Nat) → Nat
  | [] => 0
  | call :: started => if started.map Prod.fst = π then now - call.2 else openBelow now π started

/-- The times account for each other, from the reading `first` to the reading `now`. -/
structure Accounts (first now : Nat) (ended : List (List K × Nat)) (started : List (K × Nat)) :
    Prop where
  since : ∀ call ∈ started, first ≤ call.2 ∧ call.2 ≤ now
  inner : ∀ π, π ≠ [] →
    timeBelow π ended + openBelow now π started ≤ timeAt π ended + openAt now π started
  outer : timeBelow [] ended + openBelow now [] started ≤ now - first

section Open

variable {now now' : Nat} {π : List K} {k : K} {started : List (K × Nat)}

/-- What is deeper than the open path is not open. -/
theorem openAt_of_deeper (h : started.length < π.length) : openAt now π started = 0 := by
  induction started with
  | nil => rfl
  | cons call started ih =>
    rw [List.length_cons] at h
    rw [openAt, if_neg, ih (by omega)]
    rintro rfl
    simp at h

theorem openBelow_of_deeper (h : started.length ≤ π.length) : openBelow now π started = 0 := by
  induction started with
  | nil => rfl
  | cons call started ih =>
    rw [List.length_cons] at h
    rw [openBelow, if_neg, ih (by omega)]
    rintro rfl
    simp at h

/-- A call that starts now has not run. -/
theorem openAt_start : openAt now π ((k, now) :: started) = openAt now π started := by
  rw [openAt]
  split
  · next hπ =>
    rw [openAt_of_deeper, Nat.sub_self]
    rw [← hπ]
    simp
  · rfl

theorem openBelow_start : openBelow now π ((k, now) :: started) = openBelow now π started := by
  rw [openBelow]
  split
  · next hπ =>
    rw [openBelow_of_deeper, Nat.sub_self]
    rw [← hπ]
    simp
  · rfl

/-- While time passes, nothing runs that the call around it does not run around. -/
theorem openBelow_later (hnow : now ≤ now') (hs : ∀ call ∈ started, call.2 ≤ now) (hπ : π ≠ []) :
    openBelow now' π started + openAt now π started ≤
      openBelow now π started + openAt now' π started := by
  induction started with
  | nil => exact Nat.le_refl _
  | cons call started ih =>
    have hcall := hs call List.mem_cons_self
    have hs' : ∀ call ∈ started, call.2 ≤ now := fun c hc => hs c (List.mem_cons_of_mem _ hc)
    by_cases hbelow : started.map Prod.fst = π
    · -- the call around `call` is the next one on the list
      have hat : (call :: started).map Prod.fst ≠ π := by
        rw [← hbelow]
        intro h
        simpa using congrArg List.length h
      rw [openBelow, if_pos hbelow, openBelow, if_pos hbelow, openAt, if_neg hat, openAt, if_neg hat]
      cases started with
      | nil => exact absurd hbelow.symm hπ
      | cons outer started =>
        have houter := hs' outer List.mem_cons_self
        rw [openAt, if_pos hbelow, openAt, if_pos hbelow]
        omega
    · by_cases hat : (call :: started).map Prod.fst = π
      · have hdeep : ∀ now, openBelow now π started = 0 := by
          intro now
          rw [openBelow_of_deeper]
          rw [← hat]
          simp
        rw [openBelow, if_neg hbelow, openBelow, if_neg hbelow, openAt, if_pos hat, openAt,
          if_pos hat, hdeep, hdeep]
        omega
      · rw [openBelow, if_neg hbelow, openBelow, if_neg hbelow, openAt, if_neg hat, openAt,
          if_neg hat]
        exact ih hs'

theorem openBelow_later_le (hnow : now ≤ now') :
    openBelow now' π started ≤ openBelow now π started + (now' - now) := by
  induction started with
  | nil => exact Nat.zero_le _
  | cons call started ih =>
    rw [openBelow, openBelow]
    split
    · omega
    · exact ih

/-- One open call is open below one path. -/
theorem openAt_le_openBelow : openAt now (k :: π) started ≤ openBelow now π started := by
  induction started with
  | nil => exact Nat.le_refl _
  | cons call started ih =>
    rw [openAt, openBelow]
    by_cases hbelow : started.map Prod.fst = π
    · rw [if_pos hbelow]
      split
      · exact Nat.le_refl _
      · rw [openAt_of_deeper]
        · exact Nat.zero_le _
        · rw [← hbelow]
          simp
    · rw [if_neg hbelow, if_neg]
      · exact ih
      · rw [List.map_cons, List.cons.injEq]
        exact fun h => hbelow h.2

end Open

namespace Accounts

variable {first now now' : Nat} {ended : List (List K × Nat)} {started : List (K × Nat)}
  {π : List K} {k : K}

theorem init (first now : Nat) : Accounts (K := K) first now [] [] where
  since _ h := absurd h (by simp)
  inner _ _ := Nat.le_refl _
  outer := Nat.zero_le _

theorem later (h : Accounts first now ended started) (hfirst : first ≤ now) (hnow : now ≤ now') :
    Accounts first now' ended started where
  since call hcall := ⟨(h.since call hcall).1, (h.since call hcall).2.trans hnow⟩
  inner π hπ := by
    have hinner := h.inner π hπ
    have hlater := openBelow_later hnow (fun call hcall => (h.since call hcall).2) hπ
    omega
  outer := by
    have houter := h.outer
    have hlater : openBelow now' [] started ≤ _ := openBelow_later_le hnow
    omega

theorem start (h : Accounts first now ended started) (hfirst : first ≤ now) (k : K) :
    Accounts first now ended ((k, now) :: started) where
  since call hcall := by
    rcases List.mem_cons.mp hcall with rfl | hcall
    · exact ⟨hfirst, Nat.le_refl _⟩
    · exact h.since call hcall
  inner π hπ := by
    rw [openBelow_start, openAt_start]
    exact h.inner π hπ
  outer := by
    rw [openBelow_start]
    exact h.outer

/-- The time of the call moves from one side to the other, at its own path … -/
theorem timeAt_stop (call : K × Nat) : timeAt π (((call :: started).map Prod.fst, now - call.2) :: ended) +
    openAt now π started = timeAt π ended + openAt now π (call :: started) := by
  rw [timeAt, openAt]
  split
  · next hπ =>
    rw [openAt_of_deeper]
    · omega
    · rw [← hπ]
      simp
  · rfl

/-- … and one level below the path around it. -/
theorem timeBelow_stop (call : K × Nat) :
    timeBelow π (((call :: started).map Prod.fst, now - call.2) :: ended) + openBelow now π started =
      timeBelow π ended + openBelow now π (call :: started) := by
  rw [List.map_cons, timeBelow, openBelow]
  split
  · next hπ =>
    rw [openBelow_of_deeper]
    · omega
    · rw [← hπ]
      simp
  · rfl

theorem stop {call : K × Nat} (h : Accounts first now ended (call :: started)) :
    Accounts first now (((call :: started).map Prod.fst, now - call.2) :: ended) started where
  since c hc := h.since c (List.mem_cons_of_mem _ hc)
  inner π hπ := by
    rw [timeAt_stop, timeBelow_stop]
    exact h.inner π hπ
  outer := by
    rw [timeBelow_stop]
    exact h.outer

end Accounts

/-! ## What follows -/

section Sums

variable {first now : Nat} {ended : List (List K × Nat)} {started : List (K × Nat)} {π : List K}
  {k : K} {ks : List K}

/-- A call one level below `π` is counted under one name. -/
theorem sum_ite_le {k₀ : K} {d : Nat} (hks : ks.Nodup) :
    (ks.map fun k => if k = k₀ then d else 0).sum ≤ d := by
  induction ks with
  | nil => exact Nat.zero_le _
  | cons k ks ih =>
    obtain ⟨hk, hks⟩ := List.nodup_cons.mp hks
    rw [List.map_cons, List.sum_cons]
    by_cases hk₀ : k = k₀
    · have hrest : (ks.map fun k => if k = k₀ then d else 0).sum = 0 := by
        refine List.sum_eq_zero fun n hn => ?_
        obtain ⟨k', hk', rfl⟩ := List.mem_map.mp hn
        rw [if_neg]
        rintro rfl
        exact hk (hk₀ ▸ hk')
      rw [if_pos hk₀, hrest]
      exact Nat.le_refl _
    · rw [if_neg hk₀, Nat.zero_add]
      exact ih hks

/-- The calls below `π` include those of any names. -/
theorem sum_timeAt_le (hks : ks.Nodup) :
    (ks.map fun k => timeAt (k :: π) ended).sum ≤ timeBelow π ended := by
  induction ended with
  | nil => simp [timeAt]
  | cons call ended ih =>
    obtain ⟨σ, d⟩ := call
    cases σ with
    | nil => simpa [timeAt, timeBelow] using ih
    | cons k₀ σ =>
      rw [timeBelow]
      by_cases hσ : σ = π
      · have hsplit : (ks.map fun k => timeAt (k :: π) ((k₀ :: σ, d) :: ended)) =
            ks.map fun k => (if k = k₀ then d else 0) + timeAt (k :: π) ended := by
          refine List.map_congr_left fun k _ => ?_
          rw [timeAt, hσ]
          by_cases hk : k = k₀
          · simp [hk]
          · simp [hk, Ne.symm hk]
        rw [if_pos hσ, hsplit, List.sum_map_add]
        exact Nat.add_le_add (sum_ite_le hks) ih
      · have hsame : (ks.map fun k => timeAt (k :: π) ((k₀ :: σ, d) :: ended)) =
            ks.map fun k => timeAt (k :: π) ended := by
          refine List.map_congr_left fun k _ => ?_
          rw [timeAt, if_neg fun h => hσ (List.cons.inj h).2]
        rw [if_neg hσ, hsame]
        exact ih

theorem timeAt_le_timeBelow : timeAt (k :: π) ended ≤ timeBelow π ended := by
  simpa using sum_timeAt_le (π := π) (List.nodup_singleton k)

theorem openAt_of_closed (h : ¬ π <:+ started.map Prod.fst) : openAt now π started = 0 := by
  induction started with
  | nil => rfl
  | cons call started ih =>
    rw [openAt, if_neg, ih]
    · exact fun hs => h (hs.trans (List.suffix_cons _ _))
    · rintro rfl
      exact h List.suffix_rfl

/-- **At a path that is not open, the calls took at least as long as those one level below.** -/
theorem Accounts.below_le (h : Accounts first now ended started) (hks : ks.Nodup) (hπ : π ≠ [])
    (hclosed : ¬ π <:+ started.map Prod.fst) :
    (ks.map fun k => timeAt (k :: π) ended).sum ≤ timeAt π ended := by
  have hsum : _ ≤ timeBelow π ended := sum_timeAt_le hks
  have hinner := h.inner π hπ
  rw [openAt_of_closed hclosed] at hinner
  omega

/-- **No path took longer than has passed.** -/
theorem Accounts.le_span (h : Accounts first now ended started) (hπ : π ≠ []) :
    timeAt π ended + openAt now π started ≤ now - first := by
  induction π with
  | nil => exact absurd rfl hπ
  | cons k π ih =>
    have hended : timeAt (k :: π) ended ≤ timeBelow π ended := timeAt_le_timeBelow
    have hopen : openAt now (k :: π) started ≤ openBelow now π started := openAt_le_openBelow
    by_cases hπ : π = []
    · subst hπ
      have houter := h.outer
      omega
    · have hinner := h.inner π hπ
      have hspan := ih hπ
      omega

end Sums
end Lib

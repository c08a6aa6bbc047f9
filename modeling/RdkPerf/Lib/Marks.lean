import Mathlib

/-!
# The marks nested calls leave

Calls are entered and left one inside the other, and each entering and each leaving leaves a mark,
the newest first. A call is known by its path, the names of the calls around it, innermost first;
one path can be called again and again.

`since π` is what was marked after `π` was last entered. While `π` is open that is what happened
inside the call that is open there, and nothing above `π` is left in it; after `π` was left it is
what happened inside its last call, and in what came after nothing below `π` is left. So a call
marked there took no longer than the last call at `π` (`last_le`).
-/

namespace Lib

variable {K T : Type}

inductive Mark (K T : Type) where
  | enter (π : List K)
  | leave (π : List K) (elapsed : T)
deriving DecidableEq, Repr

namespace Marks

/-- The path that is open. -/
def openAfter : List (Mark K T) → List K
  | [] => []
  | .enter π :: _ => π
  | .leave π _ :: _ => π.tail

theorem not_suffix_tail {π : List K} (hπ : π ≠ []) : ¬ π <:+ π.tail := by
  intro h
  have hlen := h.length_le
  rw [List.length_tail] at hlen
  have := List.length_pos_iff.mpr hπ
  omega

section Since

variable [DecidableEq K]

/-- How long the last call at `π` took. -/
def last (π : List K) : List (Mark K T) → Option T
  | [] => none
  | .enter _ :: ms => last π ms
  | .leave σ elapsed :: ms => if σ = π then some elapsed else last π ms

/-- Where `π` was left last. -/
theorem last_append {π : List K} {d : T} {ms : List (Mark K T)} (h : last π ms = some d) :
    ∃ newer older, ms = newer ++ .leave π d :: older ∧ ∀ v, .leave π v ∉ newer := by
  induction ms with
  | nil => exact absurd h (by simp [last])
  | cons m ms ih =>
    cases m with
    | enter ρ =>
      obtain ⟨newer, older, hms, hnone⟩ := ih h
      refine ⟨.enter ρ :: newer, older, by rw [hms]; rfl, fun v hv => ?_⟩
      exact hnone v ((List.mem_cons.mp hv).resolve_left (by simp))
    | leave ρ e =>
      rw [last] at h
      split at h
      · next hρ =>
        obtain rfl := Option.some.inj h
        exact ⟨[], ms, by rw [hρ]; rfl, fun _ => List.not_mem_nil⟩
      · next hρ =>
        obtain ⟨newer, older, hms, hnone⟩ := ih h
        refine ⟨.leave ρ e :: newer, older, by rw [hms]; rfl, fun v hv => ?_⟩
        exact hnone v ((List.mem_cons.mp hv).resolve_left fun heq => hρ (Mark.leave.inj heq).1.symm)

variable [DecidableEq T]

/-- The marks after `π` was last entered. -/
def since (π : List K) (ms : List (Mark K T)) : List (Mark K T) := ms.takeWhile (· ≠ .enter π)

/-- Only what is innermost is left, only what is one level below it is entered, and nothing takes
    longer than the call it was made in. -/
def Nested [LE T] : List (Mark K T) → Prop
  | [] => True
  | .enter π :: ms => π ≠ [] ∧ π.tail = openAfter ms ∧ Nested ms
  | .leave π elapsed :: ms => π ≠ [] ∧ π = openAfter ms ∧
      (∀ σ d, .leave σ d ∈ since π ms → d ≤ elapsed) ∧ Nested ms

variable {π σ : List K} {k : K} {d : T} {m : Mark K T} {ms newer : List (Mark K T)}

theorem since_cons_of_ne (h : m ≠ .enter π) : since π (m :: ms) = m :: since π ms :=
  List.takeWhile_cons_of_pos (by simpa using h)

theorem since_enter : since π (.enter π :: ms) = [] := List.takeWhile_cons_of_neg (by simp)

theorem enter_notMem_since : .enter π ∉ since π ms := by
  intro h
  have hne := List.mem_takeWhile_imp h
  simp at hne

/-- Where `π` was entered last. -/
theorem since_append (h : .enter π ∈ ms) : ∃ older, ms = since π ms ++ .enter π :: older := by
  induction ms with
  | nil => exact absurd h (List.not_mem_nil)
  | cons m ms ih =>
    by_cases hm : m = .enter π
    · subst hm
      exact ⟨ms, by rw [since_enter, List.nil_append]⟩
    · have hmem : .enter π ∈ ms := (List.mem_cons.mp h).resolve_left fun heq => hm heq.symm
      obtain ⟨older, holder⟩ := ih hmem
      exact ⟨older, by rw [since_cons_of_ne hm, List.cons_append, ← holder]⟩

/-- What is in front of the mark does not matter … -/
theorem since_of_notMem (h : .enter π ∉ newer) : since π (newer ++ ms) = newer ++ since π ms := by
  induction newer with
  | nil => rfl
  | cons m newer ih =>
    rw [List.cons_append, since_cons_of_ne fun hm => h (hm ▸ List.mem_cons_self),
      ih fun hmem => h (List.mem_cons_of_mem _ hmem), List.cons_append]

theorem since_of_mem (h : .enter π ∈ newer) : since π (newer ++ ms) ⊆ newer := by
  obtain ⟨older, holder⟩ := since_append h
  rw [holder, List.append_assoc, since_of_notMem enter_notMem_since, List.cons_append, since_enter,
    List.append_nil]
  exact List.subset_append_left _ _

/-- … and a path entered since `π` was has a shorter past. -/
theorem since_subset (h : .enter σ ∈ since π ms) : since σ ms ⊆ since π ms := by
  induction ms with
  | nil => exact absurd h (List.not_mem_nil)
  | cons m ms ih =>
    by_cases hm : m = .enter π
    · rw [hm, since_enter] at h
      exact absurd h (List.not_mem_nil)
    · rw [since_cons_of_ne hm] at h ⊢
      by_cases hσ : m = .enter σ
      · rw [hσ, since_enter]
        exact List.nil_subset _
      · rw [since_cons_of_ne hσ]
        have hmem := (List.mem_cons.mp h).resolve_left fun heq => hσ heq.symm
        exact List.cons_subset_cons _ (ih hmem)

/-! ## The last call -/

/-- The last call at a path is marked, wherever one is. -/
theorem last_of_leave (h : .leave π d ∈ since σ ms) :
    ∃ v, last π ms = some v ∧ .leave π v ∈ since σ ms := by
  induction ms with
  | nil => exact absurd h (List.not_mem_nil)
  | cons m ms ih =>
    by_cases hm : m = .enter σ
    · rw [hm, since_enter] at h
      exact absurd h (List.not_mem_nil)
    · rw [since_cons_of_ne hm] at h ⊢
      cases m with
      | enter ρ =>
        obtain ⟨v, hv, hmem⟩ := ih ((List.mem_cons.mp h).resolve_left (by simp))
        exact ⟨v, hv, List.mem_cons_of_mem _ hmem⟩
      | leave ρ e =>
        rw [last]
        by_cases hρ : ρ = π
        · exact ⟨e, if_pos hρ, hρ ▸ List.mem_cons_self⟩
        · have hrest := (List.mem_cons.mp h).resolve_left fun heq =>
            hρ (Mark.leave.inj heq).1.symm
          obtain ⟨v, hv, hmem⟩ := ih hrest
          exact ⟨v, by rw [if_neg hρ, hv], List.mem_cons_of_mem _ hmem⟩

/-! ## What is open stays open until it is left, and closed until it is entered -/

variable [LE T]

theorem Nested.right (h : Nested (newer ++ ms)) : Nested ms := by
  induction newer with
  | nil => exact h
  | cons m newer ih =>
    cases m with
    | enter ρ => exact ih h.2.2
    | leave ρ e => exact ih h.2.2.2

/-- A path that was not left is still open. -/
theorem Nested.stays_open (h : Nested (newer ++ ms)) (hopen : π <:+ openAfter ms)
    (hleave : ∀ v, .leave π v ∉ newer) : π <:+ openAfter (newer ++ ms) := by
  induction newer with
  | nil => exact hopen
  | cons m newer ih =>
    have hrest : ∀ v, .leave π v ∉ newer := fun v hv => hleave v (List.mem_cons_of_mem _ hv)
    cases m with
    | enter ρ =>
      obtain ⟨-, htail, hn⟩ := h
      have hin := ih hn hrest
      exact (show π <:+ ρ.tail from htail ▸ hin).trans (List.tail_suffix ρ)
    | leave ρ e =>
      obtain ⟨hne, hρ, -, hn⟩ := h
      have hin : π <:+ ρ := hρ ▸ ih hn hrest
      -- what is left is another path than the one that stays
      obtain ⟨k, ρ, rfl⟩ := List.exists_cons_of_ne_nil hne
      rcases List.suffix_cons_iff.mp hin with rfl | hin
      · exact absurd List.mem_cons_self (hleave e)
      · exact hin

/-- A path that was not entered is still closed, and nothing below it was left. -/
theorem Nested.stays_closed (h : Nested (newer ++ ms)) (hopen : ¬ π <:+ openAfter ms)
    (henter : .enter π ∉ newer) :
    ¬ π <:+ openAfter (newer ++ ms) ∧ ∀ σ v, π <:+ σ → .leave σ v ∉ newer := by
  induction newer with
  | nil => exact ⟨hopen, fun _ _ _ => List.not_mem_nil⟩
  | cons m newer ih =>
    have hrest : .enter π ∉ newer := fun hmem => henter (List.mem_cons_of_mem _ hmem)
    cases m with
    | enter ρ =>
      obtain ⟨hne, htail, hn⟩ := h
      obtain ⟨hclosed, hleave⟩ := ih hn hrest
      refine ⟨fun hin => ?_, fun σ v hσ hmem => ?_⟩
      · obtain ⟨k, ρ, rfl⟩ := List.exists_cons_of_ne_nil hne
        rcases List.suffix_cons_iff.mp hin with rfl | hin
        · exact henter List.mem_cons_self
        · exact hclosed (htail ▸ hin)
      · exact hleave σ v hσ ((List.mem_cons.mp hmem).resolve_left (by simp))
    | leave ρ e =>
      obtain ⟨-, hρ, -, hn⟩ := h
      obtain ⟨hclosed, hleave⟩ := ih hn hrest
      refine ⟨fun hin => ?_, fun σ v hσ hmem => ?_⟩
      · exact hclosed (hρ ▸ hin.trans (List.tail_suffix ρ))
      · rcases List.mem_cons.mp hmem with heq | hmem
        · rw [(Mark.leave.inj heq).1, hρ] at hσ
          exact hclosed hσ
        · exact hleave σ v hσ hmem

/-- What is open was entered, and so was what it is in … -/
theorem Nested.entered_open (h : Nested ms) (hπ : π <:+ openAfter ms) (hne : π ≠ []) :
    .enter π ∈ ms := by
  induction ms with
  | nil => exact absurd (List.suffix_nil.mp hπ) hne
  | cons m ms ih =>
    cases m with
    | enter ρ =>
      obtain ⟨hρ, htail, hn⟩ := h
      obtain ⟨k, ρ, rfl⟩ := List.exists_cons_of_ne_nil hρ
      rcases List.suffix_cons_iff.mp hπ with rfl | hin
      · exact List.mem_cons_self
      · exact List.mem_cons_of_mem _ (ih hn (htail ▸ hin))
    | leave ρ e =>
      obtain ⟨-, hρ, -, hn⟩ := h
      exact List.mem_cons_of_mem _ (ih hn (hρ ▸ hπ.trans (List.tail_suffix ρ)))

/-- … as was whatever a path that was entered is in. -/
theorem Nested.entered_above (h : Nested ms) (hπ : .enter (k :: π) ∈ ms) (hne : π ≠ []) :
    .enter π ∈ ms := by
  obtain ⟨older, holder⟩ := since_append hπ
  rw [holder] at h ⊢
  obtain ⟨-, htail, hn⟩ := h.right
  have hopen : π <:+ openAfter older := htail ▸ List.suffix_rfl
  exact List.mem_append_right _ (List.mem_cons_of_mem _ (hn.entered_open hopen hne))

/-- **What was left inside an open call was entered inside it.** -/
theorem Nested.entered_inside (h : Nested ms) (hπ : .enter π ∈ ms) (hne : ¬ σ <:+ π)
    (hleave : .leave σ d ∈ since π ms) : .enter σ ∈ since π ms := by
  by_contra hnone
  obtain ⟨older, holder⟩ := since_append hπ
  rw [holder] at h
  exact (h.stays_closed hne hnone).2 σ d List.suffix_rfl hleave

/-- **A call marked since `π` was entered took no longer than the last call at `π`**, if that has
    ended. -/
theorem Nested.last_le (h : Nested ms) (hπ : π ≠ []) (henter : .enter π ∈ ms)
    (hclosed : ¬ π <:+ openAfter ms) (hσ : π <:+ σ) (hleave : .leave σ d ∈ since π ms) :
    ∃ v, last π ms = some v ∧ (σ ≠ π → d ≤ v) := by
  obtain ⟨older, holder⟩ := since_append henter
  have hopen : π <:+ openAfter (.enter π :: older : List (Mark K T)) := List.suffix_rfl
  -- it was left since, and only once
  obtain ⟨e, he⟩ : ∃ e, .leave π e ∈ since π ms := by
    by_contra hnone
    rw [holder] at h hclosed
    exact hclosed (h.stays_open hopen fun v hv => hnone ⟨v, hv⟩)
  obtain ⟨v, hv, hmem⟩ := last_of_leave he
  refine ⟨v, hv, fun hne => ?_⟩
  obtain ⟨newer, older', hms, hnone⟩ := last_append hv
  rw [hms] at h hmem hleave
  have hnew : .enter π ∉ newer := fun hin => hnone v (since_of_mem hin hmem)
  rw [since_of_notMem hnew, since_cons_of_ne (by simp)] at hleave
  rcases List.mem_append.mp hleave with hin | hin
  · -- nothing below `π` is left once it is closed
    exact absurd hin ((h.stays_closed (not_suffix_tail hπ) hnew).2 σ d hσ)
  · have hin := (List.mem_cons.mp hin).resolve_left fun heq => hne (Mark.leave.inj heq).1
    exact (h.right).2.2.1 σ d hin

end Since
end Marks
end Lib

import RdkPerf.Spec.Ledger

/-!
# The figures of a log

`statsAt` follows the code, one event at a time. Here the figures are what they are meant to be:
how many calls ended at a path, how long they took in all and at most — since the tree was created
for the totals, since the last report for the interval. Counters are 64 bits wide, so they are
these numbers as long as fewer than `2 ^ 64` calls were entered (`Ledger.counted`).
-/

namespace RdkPerf

open Lib

variable {π : Path} {es : List Event}

/-- How long the calls at `π` took, the last one first. -/
def elapsedAt (π : Path) : List Event → List UInt64
  | [] => []
  | .enter _ :: es => elapsedAt π es
  | .leave σ elapsed :: es => if σ = π then elapsed :: elapsedAt π es else elapsedAt π es
  | .report _ :: es => elapsedAt π es

/-- What happened after the last report. -/
def sinceReport : List Event → List Event
  | [] => []
  | .enter π :: es => .enter π :: sinceReport es
  | .leave π elapsed :: es => .leave π elapsed :: sinceReport es
  | .report _ :: _ => []

/-- The path that was open at the last report. Nothing was open before the first call. -/
def openAtReport : List Event → Path
  | [] => []
  | .enter _ :: es => openAtReport es
  | .leave _ _ :: es => openAtReport es
  | .report active :: _ => active

/-- Calls left. -/
def leaves : List Event → Nat
  | [] => 0
  | .enter _ :: es => leaves es
  | .leave _ _ :: es => leaves es + 1
  | .report _ :: es => leaves es

theorem length_elapsedAt_le (π : Path) (es : List Event) : (elapsedAt π es).length ≤ leaves es := by
  induction es with
  | nil => exact Nat.le_refl _
  | cons e es ih =>
    cases e with
    | enter σ => exact ih
    | leave σ d =>
      rw [elapsedAt, leaves]
      split
      · exact Nat.succ_le_succ ih
      · exact Nat.le_succ_of_le ih
    | report active => exact ih

theorem mem_elapsedAt {d : UInt64} : d ∈ elapsedAt π es ↔ .leave π d ∈ es := by
  induction es with
  | nil => simp [elapsedAt]
  | cons e es ih =>
    cases e with
    | enter σ => simp [elapsedAt, ih]
    | leave σ d' =>
      rw [elapsedAt]
      by_cases hσ : σ = π
      · simp [hσ, ih]
      · simp [hσ, ih, Ne.symm hσ]
    | report active => simp [elapsedAt, ih]

theorem leaves_eq_zero_iff : leaves es = 0 ↔ ∀ π d, .leave π d ∉ es := by
  induction es with
  | nil => simp [leaves]
  | cons e es ih =>
    cases e with
    | enter σ => simp [leaves, ih]
    | leave σ d =>
      simp only [leaves, Nat.add_eq_zero_iff, one_ne_zero, and_false, false_iff, not_forall]
      exact ⟨σ, d, fun hn => hn List.mem_cons_self⟩
    | report active => simp [leaves, ih]

theorem toNat_sum (ds : List UInt64) : ds.sum.toNat = (ds.map (·.toNat)).sum % 2 ^ 64 := by
  induction ds with
  | nil => rfl
  | cons d ds ih => rw [List.sum_cons, UInt64.toNat_add, ih, List.map_cons, List.sum_cons,
      Nat.add_mod_mod]

/-! ## Entries since the last report -/

theorem entries_eq_add (es : List Event) : entries es = entriesAtReport es + entries (sinceReport es) := by
  induction es with
  | nil => rfl
  | cons e es ih =>
    cases e with
    | enter σ =>
      rw [entries, ih]
      rfl
    | leave σ d => exact ih
    | report active => rfl

theorem entries_eq_zero_iff : entries es = 0 ↔ ∀ π, .enter π ∉ es := by
  induction es with
  | nil => simp [entries]
  | cons e es ih =>
    cases e with
    | enter σ =>
      simp only [entries, Nat.add_eq_zero_iff, one_ne_zero, and_false, false_iff, not_forall]
      exact ⟨σ, fun hn => hn List.mem_cons_self⟩
    | leave σ d => simp [entries, ih]
    | report active => simp [entries, ih]

theorem sinceReport_subset : sinceReport es ⊆ es := by
  induction es with
  | nil => exact List.Subset.refl _
  | cons e es ih =>
    cases e with
    | enter σ => exact List.cons_subset_cons _ ih
    | leave σ d => exact List.cons_subset_cons _ ih
    | report active => exact List.nil_subset _

/-! ## The counters of a node -/

theorem max_eq_ite (a b : UInt64) : max a b = if b < a then a else b := by
  show (if a ≤ b then b else a) = _
  by_cases h : a ≤ b
  · rw [if_pos h, if_neg (UInt64.not_lt.mpr h)]
  · rw [if_neg h, if_pos (UInt64.not_le.mp h)]

/-- The total time of a node is that of the calls at its path. -/
theorem statsAt_time (π : Path) (es : List Event) :
    (statsAt π es).nTotalTime = (elapsedAt π es).sum := by
  induction es with
  | nil =>
    rw [statsAt]
    split <;> rfl
  | cons e es ih =>
    cases e with
    | enter σ => exact ih
    | report active => exact ih
    | leave σ d =>
      rw [statsAt, elapsedAt]
      by_cases hσ : σ = π
      · simp only [hσ, if_true, TimingStats.increment, ih, List.sum_cons]
        exact UInt64.add_comm _ _
      · simp only [hσ, if_false]
        exact ih

/-- The totals of a node sum up the calls at its path … -/
theorem statsAt_totals (es : List Event) (hπ : π ≠ []) :
    (statsAt π es).nTotalCount = UInt64.ofNat (elapsedAt π es).length ∧
      (statsAt π es).nTotalTime = (elapsedAt π es).sum ∧
      (statsAt π es).nTotalMax = (elapsedAt π es).foldr max 0 := by
  suffices h : (statsAt π es).nTotalCount = UInt64.ofNat (elapsedAt π es).length ∧
      (statsAt π es).nTotalMax = (elapsedAt π es).foldr max 0 from ⟨h.1, statsAt_time π es, h.2⟩
  induction es with
  | nil =>
    rw [statsAt, if_neg hπ]
    exact ⟨rfl, rfl⟩
  | cons e es ih =>
    cases e with
    | enter σ => exact ih
    | report active => exact ih
    | leave σ d =>
      obtain ⟨hcount, hmax⟩ := ih
      rw [statsAt, elapsedAt]
      by_cases hσ : σ = π
      · simp only [hσ, if_true, TimingStats.increment, hcount, hmax, List.length_cons,
          List.foldr_cons]
        exact ⟨(UInt64.ofNat_add _ 1).symm, (max_eq_ite _ _).symm⟩
      · simp only [hσ, if_false]
        exact ⟨hcount, hmax⟩

/-- … and the interval figures those since the last report. -/
theorem statsAt_interval (es : List Event) (hπ : π ≠ []) :
    (statsAt π es).nIntervalCount = UInt64.ofNat (elapsedAt π (sinceReport es)).length ∧
      (statsAt π es).nIntervalTime = (elapsedAt π (sinceReport es)).sum := by
  induction es with
  | nil =>
    rw [statsAt, if_neg hπ]
    exact ⟨rfl, rfl⟩
  | cons e es ih =>
    cases e with
    | enter σ => exact ih
    | report active => exact ⟨rfl, rfl⟩
    | leave σ d =>
      obtain ⟨hcount, htime⟩ := ih
      rw [statsAt, sinceReport, elapsedAt]
      by_cases hσ : σ = π
      · simp only [hσ, if_true, TimingStats.increment, hcount, htime, List.length_cons,
          List.sum_cons]
        exact ⟨(UInt64.ofNat_add _ 1).symm, UInt64.add_comm _ _⟩
      · simp only [hσ, if_false]
        exact ⟨hcount, htime⟩

/-! ## No counter of a short trace wraps -/

namespace ThreadLog

/-- Every call left was entered, and is no longer open. -/
def Counted (l : ThreadLog) : Prop :=
  leaves l.events + (Frames.handles l.frames).length ≤ entries l.events

variable {l : ThreadLog} {hPerf : Handle} {ts : UInt64} {name : Name}

theorem Counted.init (tID : pthread_t) (n : Name) : (ThreadLog.init tID n).Counted :=
  Nat.le_refl _

theorem Counted.enter (h : l.Counted) : (l.enter name hPerf ts).Counted := by
  unfold Counted at h ⊢
  show leaves l.events + (Frames.handles l.frames).length.succ ≤ entries l.events + 1
  omega

theorem Counted.stop (h : l.Counted) : (l.stop hPerf ts).Counted := by
  cases ht : Frames.trail hPerf l.frames with
  | none => rw [stop_of_none ht]; exact h
  | some calls =>
    have hmem : hPerf ∈ Frames.handles l.frames := by
      refine Classical.byContradiction fun hn => ?_
      rw [Frames.trail_eq_none_iff.mpr hn] at ht
      exact absurd ht (by simp)
    have hlt := Frames.length_handles_release hmem
    unfold Counted at h ⊢
    rw [stop_events ht, stop_frames]
    show leaves l.events + 1 + _ ≤ entries l.events
    omega

theorem Counted.report (h : l.Counted) : l.report.Counted := h

theorem entries_stop : entries (l.stop hPerf ts).events = entries l.events := by
  cases ht : Frames.trail hPerf l.frames with
  | none => rw [stop_of_none ht]
  | some calls => rw [stop_events ht]; rfl

end ThreadLog

/-- The root is never left. -/
theorem Ledger.left_ne_nil {pID : pid_t} {ops : List Op} {tID : pthread_t} {l : ThreadLog}
    (hl : (Ledger.run pID ops).thread tID = some l) {π : Path} {d : UInt64}
    (hleft : .leave π d ∈ l.events) : π ≠ [] := by
  refine run_logs (P := fun l => ∀ π d, .leave π d ∈ l.events → π ≠ []) pID ?_ ?_ ?_ ?_ hl π d hleft
  · exact fun tID n π d h => absurd h (by simp [ThreadLog.init])
  · intro l name hPerf ts ih π d h
    rcases List.mem_cons.mp h with h | h
    · exact absurd h (by simp)
    · exact ih π d h
  · intro l hPerf ts ih π d h
    cases ht : Frames.trail hPerf l.frames with
    | none =>
      rw [ThreadLog.stop_of_none ht] at h
      exact ih π d h
    | some calls =>
      rw [ThreadLog.stop_events ht] at h
      rcases List.mem_cons.mp h with h | h
      · rw [(Event.leave.inj h).1]
        exact fun hnil => (Frames.trail_suffix ht).2 (List.map_eq_nil_iff.mp hnil)
      · exact ih π d h
  · intro l ih π d h
    rcases List.mem_cons.mp h with h | h
    · exact absurd h (by simp)
    · exact ih π d h

/-- The removal test means what it says, as long as the counter did not wrap since the report. -/
theorem ThreadLog.inactive_iff {l : ThreadLog} (hcount : entries (sinceReport l.events) < 2 ^ 64) :
    l.callTree.inactive = true ↔ (∀ π, .enter π ∉ sinceReport l.events) ∧ l.active = [] := by
  show decide (UInt64.ofNat (entries l.events) = UInt64.ofNat (entriesAtReport l.events) ∧
    l.active = []) = true ↔ _
  rw [decide_eq_true_eq, ← entries_eq_zero_iff, entries_eq_add]
  refine and_congr_left fun _ => ⟨fun h => ?_, fun h => by rw [h, Nat.add_zero]⟩
  have hnat := congrArg UInt64.toNat h
  rw [UInt64.toNat_ofNat', UInt64.toNat_ofNat'] at hnat
  omega

/-- A thread leaves no more calls than it entered … -/
theorem Ledger.counted {pID : pid_t} {ops : List Op} {tID : pthread_t} {l : ThreadLog}
    (hl : (Ledger.run pID ops).thread tID = some l) : l.Counted := by
  refine run_logs pID ?_ ?_ ?_ ?_ hl
  · exact fun tID n => .init tID n
  · exact fun l name hPerf ts h => h.enter
  · exact fun l hPerf ts h => h.stop
  · exact fun l h => h.report

/-- … and enters no more than there were starts. -/
theorem Ledger.entries_le {pID : pid_t} {ops : List Op} {tID : pthread_t} {l : ThreadLog}
    (hl : (Ledger.run pID ops).thread tID = some l) : entries l.events ≤ ops.countP Op.isStart := by
  induction ops using List.reverseRecOn generalizing tID l with
  | nil => exact absurd hl (by simp [run, Ledger.init])
  | append_singleton ops op ih =>
    rw [run_concat] at hl
    rw [List.countP_append]
    rcases step_thread pID tID hl with ⟨caller, szName, nThr, env, rfl, -, rfl⟩ | ⟨l₀, hl₀, h⟩
    · show _ ≤ _ + 1
      refine Nat.succ_le_succ ?_
      cases hth : (run pID ops).thread tID with
      | none => exact Nat.zero_le _
      | some l₀ => exact ih hth
    · have hle := ih hl₀
      rcases h with rfl | ⟨-, rfl⟩ | ⟨caller, hPerf, env, -, rfl⟩
      · omega
      · show entries l₀.events ≤ _
        omega
      · rw [ThreadLog.entries_stop]
        omega

end RdkPerf

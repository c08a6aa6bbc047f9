import RdkPerf.Proof.Timer

/-!
# The announced delay is one interval short

After a report `Loop` sets the counter to zero, announces the delay, and counts up in the same
iteration; the next report needs a counter above the delay. So of the iterations that find the
process, it is not the one announced that reports but the one after it (`next_report_late`).

The counters never get near their width: between two reports the count is at most one more than
the delay (`Bounded`), and that is all the argument needs of the past.

`Loop` is one call here. `loops_run` says that this is what the statements of `Model/Timer.lean` do
to the counters, whatever `StopTask` does in between.
-/

namespace RdkPerf
namespace TimerCallback

variable {t t' : TimerCallback} {found later : List Bool}

/-! ## The counters -/

/-- The delay has not passed its maximum, and the count has not passed the delay. -/
structure Bounded (t : TimerCallback) : Prop where
  nDelay : t.nDelay.toNat ≤ 604
  nCount : t.nCount.toNat ≤ t.nDelay.toNat + 1

theorem Bounded.init : Bounded {} := ⟨by decide, by decide⟩

theorem toNat_succ {c : UInt32} (h : c.toNat ≤ 1000) : (c + 1).toNat = c.toNat + 1 := by
  rw [UInt32.toNat_add]
  exact Nat.mod_eq_of_lt (by rw [UInt32.toNat_one]; omega)

/-- `if(m_nDelay < MAX_DELAY) m_nDelay += 5` -/
def raised (nDelay : UInt32) : UInt32 := if nDelay < MAX_DELAY then nDelay + 5 else nDelay

theorem toNat_raised {d : UInt32} (h : d.toNat ≤ 604) :
    (raised d).toNat = if d.toNat < 600 then d.toNat + 5 else d.toNat := by
  unfold raised
  split
  · next hlt =>
    have hlt' : d.toNat < 600 := UInt32.lt_iff_toNat_lt.mp hlt
    rw [if_pos hlt', UInt32.toNat_add]
    exact Nat.mod_eq_of_lt (by show d.toNat + 5 < 2 ^ 32; omega)
  · next hge =>
    have hge' : ¬ d.toNat < 600 := fun hlt => hge (UInt32.lt_iff_toNat_lt.mpr hlt)
    rw [if_neg hge']

/-- An iteration that reports. -/
theorem loop_of_gt (h : t.nDelay < t.nCount) :
    t.loop true = ({ t with nDelay := raised t.nDelay, nCount := 1 }, true) := by
  unfold loop raised
  rw [if_pos rfl, if_pos h]
  dsimp only
  split <;> rfl

/-- An iteration that only counts. -/
theorem loop_of_le (h : t.nCount ≤ t.nDelay) :
    t.loop true = ({ t with nCount := t.nCount + 1 }, false) := by
  unfold loop
  rw [if_pos rfl, if_neg (UInt32.not_lt.mpr h)]

theorem loop_missing : t.loop false = (t, false) := rfl

theorem Bounded.loop (h : t.Bounded) (f : Bool) : (t.loop f).1.Bounded := by
  cases f with
  | false => exact h
  | true =>
    have hdelay := h.nDelay
    by_cases hgt : t.nDelay < t.nCount
    · rw [loop_of_gt hgt]
      have hraised := toNat_raised hdelay
      refine ⟨?_, ?_⟩
      · show (raised t.nDelay).toNat ≤ 604
        split at hraised <;> omega
      · show 1 ≤ (raised t.nDelay).toNat + 1
        omega
    · have hle := UInt32.not_lt.mp hgt
      rw [loop_of_le hle]
      rw [UInt32.le_iff_toNat_le] at hle
      refine ⟨hdelay, ?_⟩
      show (t.nCount + 1).toNat ≤ t.nDelay.toNat + 1
      rw [toNat_succ (by omega)]
      omega

theorem Bounded.afterLoops (h : t.Bounded) : (t.afterLoops found).Bounded := by
  induction found generalizing t with
  | nil => exact h
  | cons f found ih => exact ih (h.loop f)

/-! ## The statements of `Loop` -/

/-- What `RDKPerf_FindProcess` answered, if the action asks it. -/
def Action.answer : Action → Option Bool
  | .task .findProcess choice => some choice
  | _ => none

def answers (actions : List Action) : List Bool := actions.filterMap Action.answer

/-- The reports that were made. -/
def reported (actions : List Action) : Nat := actions.countP (Action.is .reportProcess)

/-- … and those the iterations call for. -/
def due (found : List Bool) : Nat := (({} : TimerCallback).reports found).count true

def counters (t : TimerCallback) : UInt32 × UInt32 := (t.nDelay, t.nCount)

/-- Where the thread is in an iteration that has found the process, `before` the ones before it. -/
def Midway (before : List Bool) (t : TimerCallback) (n : Nat) : TaskStep → Prop
  | .compareCount => t.counters = (loops before).counters ∧ n = due before
  | .reportProcess =>
    t.counters = (loops before).counters ∧ n = due before ∧ t.nDelay < t.nCount
  | .resetCount =>
    t.counters = (loops before).counters ∧ n = due before + 1 ∧ t.nDelay < t.nCount
  | .compareDelay =>
    t.counters = ((loops before).nDelay, 0) ∧ n = due before + 1 ∧
      (loops before).nDelay < (loops before).nCount
  | .raiseDelay =>
    t.counters = ((loops before).nDelay, 0) ∧ n = due before + 1 ∧
      (loops before).nDelay < (loops before).nCount ∧ t.nDelay < MAX_DELAY
  | .countUp =>
    (t.nDelay, t.nCount + 1) = (loops (before ++ [true])).counters ∧ n = due (before ++ [true])
  | _ => False

/-- The counters are those of the iterations, and so is the number of reports. -/
def Settled (actions : List Action) (s : State) : Prop :=
  s.timer.counters = (loops (answers actions)).counters ∧ reported actions = due (answers actions)

/-- `Loop` has found the process and has not counted yet. -/
def TaskStep.counting : TaskStep → Bool
  | .compareCount | .reportProcess | .resetCount | .compareDelay | .raiseDelay | .countUp => true
  | _ => false

def Counts (actions : List Action) (s : State) : Prop :=
  (∃ before, answers actions = before ++ [true] ∧
    Midway before s.timer (reported actions) s.task) ∨
  s.task.counting = false ∧ Settled actions s

theorem afterLoops_concat (t : TimerCallback) (found : List Bool) (f : Bool) :
    t.afterLoops (found ++ [f]) = ((t.afterLoops found).loop f).1 := by
  induction found generalizing t with
  | nil => rfl
  | cons f' found ih => exact ih _

theorem reports_concat (t : TimerCallback) (found : List Bool) (f : Bool) :
    t.reports (found ++ [f]) = t.reports found ++ [((t.afterLoops found).loop f).2] := by
  induction found generalizing t with
  | nil => rfl
  | cons f' found ih => exact congrArg _ (ih _)

theorem due_concat (found : List Bool) (f : Bool) :
    due (found ++ [f]) = due found + if ((loops found).loop f).2 then 1 else 0 := by
  rw [due, reports_concat, List.count_append, List.count_singleton]
  show due found + (if ((loops found).loop f).2 == true then 1 else 0) = _
  rw [beq_true]

section Steps

variable {actions : List Action} {s s' : State} {statement : TaskStep} {choice : Bool}

/-- A statement that neither asks for the process nor reports it. -/
theorem plain_concat (actions : List Action) {a : Action} (hanswer : a.answer = none)
    (hreport : a.is .reportProcess = false) :
    answers (actions ++ [a]) = answers actions ∧ reported (actions ++ [a]) = reported actions := by
  refine ⟨?_, ?_⟩
  · rw [answers, List.filterMap_append]
    simp [hanswer, answers]
  · rw [reported, List.countP_append]
    simp [hreport, reported]

/-- A statement outside of the counting leaves the counters alone. -/
theorem Counts.outside {a : Action} (h : Counts actions s) (hanswer : a.answer = none)
    (hreport : a.is .reportProcess = false) (hbefore : s.task.counting = false)
    (hafter : s'.task.counting = false) (htimer : s'.timer.counters = s.timer.counters) :
    Counts (actions ++ [a]) s' := by
  obtain ⟨hanswers, hreported⟩ := plain_concat actions hanswer hreport
  rcases h with ⟨before, -, hmid⟩ | ⟨-, hsettled⟩
  · cases htask : s.task <;> rw [htask] at hmid hbefore <;>
      first | exact absurd hmid id | exact absurd hbefore (by decide)
  · refine Or.inr ⟨hafter, ?_⟩
    unfold Settled
    rw [hanswers, hreported, htimer]
    exact hsettled

/-- A statement of the counting, after which there are `n` reports. -/
theorem Counts.inside {a : Action} {n : Nat} (h : Counts actions s) (hat : s.task = statement)
    (hbefore : statement.counting = true) (hanswer : a.answer = none)
    (hn : reported (actions ++ [a]) = n)
    (hstep : ∀ before, Midway before s.timer (reported actions) statement →
      Midway before s'.timer n s'.task ∨ s'.task.counting = false ∧
        s'.timer.counters = (loops (before ++ [true])).counters ∧ n = due (before ++ [true])) :
    Counts (actions ++ [a]) s' := by
  have hanswers : answers (actions ++ [a]) = answers actions := by
    rw [answers, List.filterMap_append]
    simp [hanswer, answers]
  subst hat hn
  rcases h with ⟨before, hbefore, hmid⟩ | ⟨hout, -⟩
  · rcases hstep before hmid with hmid' | ⟨hcounting, hcounters, hreported⟩
    · exact Or.inl ⟨before, by rw [hanswers, hbefore], hmid'⟩
    · refine Or.inr ⟨hcounting, ?_⟩
      unfold Settled
      rw [hanswers, hbefore]
      exact ⟨hcounters, hreported⟩
  · exact absurd (hout.symm.trans hbefore) (by decide)

theorem loops_concat_of_gt {before : List Bool}
    (h : (loops before).nDelay < (loops before).nCount) :
    (loops (before ++ [true])).counters = (raised (loops before).nDelay, 1) ∧
      due (before ++ [true]) = due before + 1 := by
  refine ⟨?_, ?_⟩
  · rw [loops, afterLoops_concat]
    show ((loops before).loop true).1.counters = _
    rw [loop_of_gt h]
    rfl
  · rw [due_concat, loop_of_gt h]
    rfl

theorem loops_concat_of_le {before : List Bool}
    (h : (loops before).nCount ≤ (loops before).nDelay) :
    (loops (before ++ [true])).counters = ((loops before).nDelay, (loops before).nCount + 1) ∧
      due (before ++ [true]) = due before := by
  refine ⟨?_, ?_⟩
  · rw [loops, afterLoops_concat]
    show ((loops before).loop true).1.counters = _
    rw [loop_of_le h]
    rfl
  · rw [due_concat, loop_of_le h]
    rfl

/-- Where the thread is says something of the counters only. -/
theorem Midway.congr {before : List Bool} {n : Nat} {statement : TaskStep}
    (h : t'.counters = t.counters) :
    Midway before t' n statement = Midway before t n statement := by
  obtain ⟨hdelay, hcount⟩ := Prod.mk.inj h
  cases statement <;> simp only [Midway, h, hdelay, hcount]

theorem Counts.task (h : Counts actions s) (hs : step s (.task statement choice) = some s') :
    Counts (actions ++ [.task statement choice]) s' := by
  obtain ⟨hat, hstep⟩ := step_task.mp hs
  cases statement
  case setContinue | callLoop | breakLoop | wake | testResult =>
    obtain rfl : _ = s' := by simpa [taskStep] using hstep
    exact h.outside rfl rfl (by rw [hat]; rfl) rfl rfl
  case testContinue =>
    obtain rfl : _ = s' := by simpa [taskStep] using hstep
    refine h.outside rfl rfl (by rw [hat]; rfl) ?_ rfl
    cases s.timer.bContinue <;> rfl
  case returnLoop =>
    obtain rfl : _ = s' := by simpa [taskStep] using hstep
    refine h.outside rfl rfl (by rw [hat]; rfl) ?_ rfl
    cases s.bTimerContinue <;> rfl
  case wait =>
    simp only [taskStep] at hstep
    split at hstep
    · obtain rfl : _ = s' := by simpa using hstep
      exact h.outside rfl rfl (by rw [hat]; rfl) rfl rfl
    · obtain rfl : _ = s' := by simpa using hstep
      exact h.outside rfl rfl (by rw [hat]; rfl) rfl rfl
  case completed => simp [taskStep] at hstep
  case findProcess =>
    obtain rfl : _ = s' := by simpa [taskStep] using hstep
    have hanswers :
        answers (actions ++ [.task .findProcess choice]) = answers actions ++ [choice] := by
      rw [answers, List.filterMap_append]
      rfl
    have hreported : reported (actions ++ [.task .findProcess choice]) = reported actions := by
      rw [reported, List.countP_append]
      rfl
    rcases h with ⟨before, -, hmid⟩ | ⟨-, hcounters, hdue⟩
    · rw [hat] at hmid
      exact absurd hmid id
    · cases choice with
      | true =>
        refine Or.inl ⟨answers actions, hanswers, ?_⟩
        rw [hreported]
        exact ⟨hcounters, hdue⟩
      | false =>
        refine Or.inr ⟨rfl, ?_⟩
        unfold Settled
        rw [hanswers, hreported, loops, afterLoops_concat, due_concat]
        exact ⟨hcounters, hdue⟩
  case compareCount =>
    obtain rfl : _ = s' := by simpa [taskStep] using hstep
    refine h.inside hat rfl rfl (plain_concat actions rfl rfl).2 fun before hmid => Or.inl ?_
    obtain ⟨hcounters, hdue⟩ := hmid
    obtain ⟨hdelay, hcount⟩ := Prod.mk.inj hcounters
    by_cases hgt : s.timer.nDelay < s.timer.nCount
    · simp only [if_pos hgt]
      exact ⟨hcounters, hdue, hgt⟩
    · simp only [if_neg hgt]
      have hle : (loops before).nCount ≤ (loops before).nDelay := by
        rw [← hdelay, ← hcount]
        exact UInt32.not_lt.mp hgt
      obtain ⟨hloops, hdue'⟩ := loops_concat_of_le hle
      refine ⟨?_, by rw [hdue, hdue']⟩
      rw [hloops, hdelay, hcount]
  case reportProcess =>
    obtain rfl : _ = s' := by simpa [taskStep] using hstep
    have hone : reported (actions ++ [.task .reportProcess choice]) = reported actions + 1 := by
      rw [reported, List.countP_append]
      rfl
    refine h.inside hat rfl rfl hone fun before hmid => Or.inl ?_
    obtain ⟨hcounters, hdue, hgt⟩ := hmid
    exact ⟨hcounters, congrArg (· + 1) hdue, hgt⟩
  case resetCount =>
    obtain rfl : _ = s' := by simpa [taskStep] using hstep
    refine h.inside hat rfl rfl (plain_concat actions rfl rfl).2 fun before hmid => Or.inl ?_
    obtain ⟨hcounters, hdue, hgt⟩ := hmid
    obtain ⟨hdelay, hcount⟩ := Prod.mk.inj hcounters
    refine ⟨congrArg (·, 0) hdelay, hdue, ?_⟩
    rw [← hdelay, ← hcount]
    exact hgt
  case compareDelay =>
    obtain rfl : _ = s' := by simpa [taskStep] using hstep
    refine h.inside hat rfl rfl (plain_concat actions rfl rfl).2 fun before hmid => Or.inl ?_
    obtain ⟨hcounters, hdue, hgt⟩ := hmid
    obtain ⟨hdelay, hcount⟩ := Prod.mk.inj hcounters
    by_cases hmax : s.timer.nDelay < MAX_DELAY
    · simp only [if_pos hmax]
      exact ⟨hcounters, hdue, hgt, hmax⟩
    · simp only [if_neg hmax]
      obtain ⟨hloops, hdue'⟩ := loops_concat_of_gt hgt
      refine ⟨?_, by rw [hdue, hdue']⟩
      rw [hloops, raised, ← hdelay, if_neg hmax, hcount]
      rfl
  case raiseDelay =>
    obtain rfl : _ = s' := by simpa [taskStep] using hstep
    refine h.inside hat rfl rfl (plain_concat actions rfl rfl).2 fun before hmid => Or.inl ?_
    obtain ⟨hcounters, hdue, hgt, hmax⟩ := hmid
    obtain ⟨hdelay, hcount⟩ := Prod.mk.inj hcounters
    obtain ⟨hloops, hdue'⟩ := loops_concat_of_gt hgt
    refine ⟨?_, by rw [hdue, hdue']⟩
    rw [hloops, raised, ← hdelay, if_pos hmax]
    exact congrArg (_, · + 1) hcount
  case countUp =>
    obtain rfl : _ = s' := by simpa [taskStep] using hstep
    refine h.inside hat rfl rfl (plain_concat actions rfl rfl).2 fun before hmid => ?_
    exact Or.inr ⟨rfl, hmid⟩

/-- `StopTask` writes neither counter. -/
theorem Counts.stop {statement : StopStep} (h : Counts actions s)
    (hs : step s (.stop statement) = some s') : Counts (actions ++ [.stop statement]) s' := by
  obtain ⟨-, hstep⟩ := step_stop.mp hs
  obtain ⟨htask, -⟩ := stopStep_task hstep
  obtain ⟨hanswers, hreported⟩ := plain_concat actions (a := .stop statement) rfl rfl
  have htimer : s'.timer.nDelay = s.timer.nDelay ∧ s'.timer.nCount = s.timer.nCount := by
    cases statement <;> simp only [stopStep, Option.some.injEq, reduceCtorEq] at hstep <;>
      subst hstep <;> exact ⟨rfl, rfl⟩
  have hcounters : s'.timer.counters = s.timer.counters := by
    unfold counters
    rw [htimer.1, htimer.2]
  rcases h with ⟨before, hbefore, hmid⟩ | ⟨hout, hsettled⟩
  · refine Or.inl ⟨before, hanswers.trans hbefore, ?_⟩
    rw [hreported, htask, Midway.congr hcounters]
    exact hmid
  · refine Or.inr ⟨by rw [htask]; exact hout, ?_⟩
    unfold Settled
    rw [hanswers, hreported, hcounters]
    exact hsettled

/-- **The statements do what `Loop` does**, in every interleaving with `StopTask`: outside of the
    counting the counters are those of the iterations so far, and each that reports has reported. -/
theorem loops_run (h : Run actions s) (hout : s.task.counting = false) :
    s.timer.counters = (loops (answers actions)).counters ∧
      reported actions = due (answers actions) := by
  have hcounts : Counts actions s := by
    clear hout
    induction h with
    | init => exact Or.inr ⟨rfl, rfl, rfl⟩
    | @step actions s a s' _ hs ih =>
      cases a with
      | task statement choice => exact ih.task hs
      | stop statement => exact ih.stop hs
  rcases hcounts with ⟨before, -, hmid⟩ | ⟨-, hsettled⟩
  · cases htask : s.task <;> rw [htask] at hmid hout <;>
      first | exact absurd hmid id | exact absurd hout (by decide)
  · exact hsettled

end Steps

/-! ## The next report -/

/-- Of the iterations `later` the last one reports, and no other. -/
def NextReport (t : TimerCallback) (later : List Bool) : Prop :=
  ∃ n, t.reports later = List.replicate n false ++ [true]

/-- The next report is the iteration announced: as many find the process, and it is one of them. -/
def AsAnnounced (t : TimerCallback) : Prop :=
  ∀ later, t.NextReport later ↔ later.getLast? = some true ∧
    later.count true = (t.announced / TIMER_INTERVAL_SECONDS).toNat

theorem not_nextReport_nil : ¬ t.NextReport [] := by
  rintro ⟨n, hn⟩
  exact absurd hn (by simp [reports])

/-- An iteration without a report is skipped. -/
theorem nextReport_cons_of_silent {f : Bool} (h : (t.loop f).2 = false) :
    t.NextReport (f :: later) ↔ (t.loop f).1.NextReport later := by
  unfold NextReport
  rw [reports, h]
  constructor
  · rintro ⟨n, hn⟩
    cases n with
    | zero => exact absurd hn (by simp)
    | succ n => exact ⟨n, List.tail_eq_of_cons_eq hn⟩
  · rintro ⟨n, hn⟩
    exact ⟨n + 1, by rw [hn]; rfl⟩

/-- An iteration that reports is the next report. -/
theorem nextReport_cons_of_report {f : Bool} (h : (t.loop f).2 = true) :
    t.NextReport (f :: later) ↔ later = [] := by
  unfold NextReport
  rw [reports, h]
  constructor
  · rintro ⟨n, hn⟩
    cases n with
    | zero =>
      cases later with
      | nil => rfl
      | cons f' later => exact absurd hn (by simp [reports])
    | succ n => exact absurd hn (by simp [List.replicate_succ])
  · rintro rfl
    exact ⟨0, rfl⟩

/-- The count says how many iterations that find the process are still to come. -/
theorem Bounded.nextReport_iff (h : t.Bounded) : t.NextReport later ↔
    later.getLast? = some true ∧ later.count true + t.nCount.toNat = t.nDelay.toNat + 2 := by
  induction later generalizing t with
  | nil =>
    refine iff_of_false not_nextReport_nil ?_
    simp
  | cons f later ih =>
    have hdelay := h.nDelay
    have hcount := h.nCount
    cases f with
    | false =>
      rw [nextReport_cons_of_silent rfl, loop_missing, ih h]
      cases later with
      | nil => simp
      | cons f' later => simp
    | true =>
      by_cases hgt : t.nDelay < t.nCount
      · rw [nextReport_cons_of_report (by rw [loop_of_gt hgt])]
        rw [UInt32.lt_iff_toNat_lt] at hgt
        constructor
        · rintro rfl
          refine ⟨rfl, ?_⟩
          rw [List.count_singleton_self]
          omega
        · rintro ⟨hlast, hn⟩
          -- a later iteration would have to find the process once more
          refine List.eq_nil_of_length_eq_zero (Nat.eq_zero_of_not_pos fun hpos => ?_)
          rw [List.getLast?_cons_of_ne_nil (List.ne_nil_of_length_pos hpos)] at hlast
          have hmem := List.count_pos_iff.mpr (List.mem_of_getLast? hlast)
          rw [List.count_cons_self] at hn
          omega
      · have hle := UInt32.not_lt.mp hgt
        have hloop := h.loop true
        rw [nextReport_cons_of_silent (by rw [loop_of_le hle]), ih hloop, loop_of_le hle]
        rw [UInt32.le_iff_toNat_le] at hle
        have hsucc : (t.nCount + 1).toNat = t.nCount.toNat + 1 := toNat_succ (by omega)
        show _ ∧ later.count true + (t.nCount + 1).toNat = t.nDelay.toNat + 2 ↔ _
        rw [hsucc, List.count_cons_self]
        cases later with
        | nil =>
          refine iff_of_false (by simp) ?_
          rintro ⟨-, hn⟩
          rw [List.count_nil] at hn
          omega
        | cons f' later =>
          rw [List.getLast?_cons_cons]
          refine and_congr_right fun _ => ?_
          omega

/-- What is announced is the delay, in seconds. -/
theorem Bounded.announced (h : t.Bounded) :
    (t.announced / TIMER_INTERVAL_SECONDS).toNat = t.nDelay.toNat := by
  have hdelay := h.nDelay
  unfold TimerCallback.announced
  rw [UInt32.toNat_div, UInt32.toNat_mul]
  show t.nDelay.toNat * 10 % 2 ^ 32 / 10 = t.nDelay.toNat
  omega

/-- **Every report comes one iteration later than announced.** After any run whose last iteration
    reports, the next report is the iteration after the one announced, and never that one. -/
theorem next_report_late (pattern : List Bool) (found : Bool)
    (hreport : ((loops pattern).loop found).2 = true) :
    (∀ later, ((loops pattern).loop found).1.NextReport later ↔
      later.getLast? = some true ∧ later.count true =
        (((loops pattern).loop found).1.announced / TIMER_INTERVAL_SECONDS).toNat + 1) ∧
    ¬ ((loops pattern).loop found).1.AsAnnounced := by
  have hbounded : (loops pattern).Bounded := Bounded.init.afterLoops
  generalize loops pattern = t at hreport hbounded ⊢
  have hloop := hbounded.loop found
  have hcount : (t.loop found).1.nCount = 1 := by
    cases found with
    | false => exact absurd hreport (by simp [loop_missing])
    | true =>
      by_cases hgt : t.nDelay < t.nCount
      · rw [loop_of_gt hgt]
      · rw [loop_of_le (UInt32.not_lt.mp hgt)] at hreport
        exact absurd hreport (by simp)
  have hnext : ∀ later, (t.loop found).1.NextReport later ↔ later.getLast? = some true ∧
      later.count true = ((t.loop found).1.announced / TIMER_INTERVAL_SECONDS).toNat + 1 := by
    intro later
    rw [hloop.nextReport_iff, hloop.announced, hcount]
    refine and_congr_right fun _ => ?_
    show _ + 1 = _ ↔ _
    omega
  refine ⟨hnext, fun hannounced => ?_⟩
  -- the run that finds the process in each of the iterations announced, and in one more
  let n := ((t.loop found).1.announced / TIMER_INTERVAL_SECONDS).toNat
  have hlate := (hnext (List.replicate (n + 1) true)).mpr
    ⟨by simp [List.getLast?_replicate], by simp [n]⟩
  have hat := ((hannounced _).mp hlate).2
  rw [List.count_replicate_self] at hat
  exact absurd hat (Nat.succ_ne_self n)

/-- The process is found from the first iteration on: the second reports, and announces 50
    seconds. -/
theorem secondReport_late : ((loops [true]).loop true).2 = true ∧
    ((loops [true]).loop true).1.NextReport (List.replicate 6 true) ∧
    ¬ ((loops [true]).loop true).1.AsAnnounced :=
  ⟨by decide, ((next_report_late [true] true (by decide)).1 _).mpr (by decide),
    (next_report_late [true] true (by decide)).2⟩

/-- After it, the fifth iteration is silent. -/
theorem fifth_iteration_silent : ¬ ∀ pattern found, ((loops pattern).loop found).2 = true →
    ((loops pattern).loop found).1.AsAnnounced := by
  intro h
  obtain ⟨n, hn⟩ := (h [true] true (by decide) (List.replicate 5 true)).mpr (by decide)
  have hlast := congrArg List.getLast? hn
  rw [List.getLast?_concat] at hlast
  exact absurd hlast (by decide)

end TimerCallback
end RdkPerf

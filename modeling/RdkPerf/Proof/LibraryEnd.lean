import RdkPerf.Proof.Library

/-!
# `PerfModuleTerminate` returns

It waits for the timer thread, which returns once it sees that it is told to stop. It sees that
unless it is told before it has begun: `Task` sets `m_bContinue` as its first statement, and then
nobody clears it again (`terminates_iff`). A thread that is told in time has a bounded number of
statements left, whatever the others do.
-/

namespace RdkPerf

open Lib
open TimerCallback (TaskStep StopStep TaskFirst)

namespace Library

variable {pID : pid_t} {s s' : Library} {actions : List Action}

/-! ## The end is reached -/

/-- How many statements a timer thread that is told to stop may still execute. -/
def remaining : TaskStep → Nat
  | .completed => 0
  | .breakLoop | .testContinue => 1
  | .testResult => 2
  | .wake => 3
  | .wait => 4
  | .returnLoop => 5
  | .countUp => 6
  | .raiseDelay => 7
  | .compareDelay => 8
  | .resetCount => 9
  | .reportProcess => 10
  | .compareCount => 11
  | .findProcess => 12
  | .callLoop => 13
  | .setContinue => 14

/-- The timer thread has begun, and is told to stop. -/
structure ToldToStop (t : TimerCallback.State) : Prop where
  begun : t.task ≠ .setContinue
  bContinue : t.timer.bContinue = false
  bTimerContinue : t.bTimerContinue = true

theorem ToldToStop.nearer {t t' : TimerCallback.State} (h : ToldToStop t)
    {statement : TaskStep} {choice : Bool} (hs : TimerCallback.step t (.task statement choice) = some t') :
    remaining t'.task < remaining t.task ∧ ToldToStop t' := by
  obtain ⟨hat, hstep⟩ := TimerCallback.step_task.mp hs
  have hm := TimerCallback.taskStep_moves hstep
  obtain ⟨hbegun, hcontinue, htimer⟩ := h
  have htold : ToldToStop t' := by
    refine ⟨hm.begun, ?_, hm.bTimerContinue htimer⟩
    rw [hm.bContinue, if_neg (hat ▸ hbegun), hcontinue]
    exact ite_self _
  refine ⟨?_, htold⟩
  rw [hat]
  cases statement
  case setContinue => exact absurd hat hbegun
  case compareCount | compareDelay =>
    simp only [TimerCallback.taskStep, Option.some.injEq] at hstep
    subst hstep
    dsimp only
    split <;> decide
  case wait =>
    simp only [TimerCallback.taskStep] at hstep
    split at hstep
    · obtain rfl := Option.some.inj hstep
      simp [remaining]
    · obtain rfl := Option.some.inj hstep
      simp [remaining, TimerCallback.State.leaveWait]
  case findProcess =>
    simp only [TimerCallback.taskStep, Option.some.injEq] at hstep
    subst hstep
    cases choice <;> simp [remaining]
  case completed => cases hstep
  all_goals
    simp only [TimerCallback.taskStep, Option.some.injEq] at hstep
    subst hstep
    simp [remaining, hcontinue, htimer, TimerCallback.State.leaveWait]

theorem Sound.told (h : Sound pID actions s) (hfirst : TaskFirst (inTimer actions))
    (hstop : .stop .clearContinue ∈ inTimer actions) : ToldToStop s.threads where
  begun := h.threads.kept.begun.mpr (TimerCallback.any_of_taskFirst hfirst)
  bContinue := h.threads.kept.stopped hfirst hstop
  bTimerContinue := h.threads.kept.bTimerContinue

/-- The timer thread can go on until it is through. -/
theorem Sound.task_next (h : Sound pID actions s) (hrun : s.threads.task ≠ .completed) :
    ∃ choice s', s.step (.timer s.threads.task choice {}) = .ok (some s') := by
  obtain ⟨htimer, hmap⟩ := h.running hrun
  obtain ⟨process, hprocess⟩ := h.reports {}
  have hat : ∀ {statement : TaskStep} {choice : Bool}, s.threads.task = statement →
      s.step (.timer statement choice {}) = s.task statement choice {} := by
    rintro statement choice rfl
    exact if_pos ⟨rfl, hrun⟩
  cases htask : s.threads.task
  case completed => exact absurd htask hrun
  case findProcess =>
    refine ⟨(RDKPerf_FindProcess s.process.mem s.process.pID).isSome, ?_⟩
    simp [hat htask, task, htimer, hmap, deref, goOn, TimerCallback.taskStep]
  case reportProcess =>
    refine ⟨false, ?_⟩
    simp [hat htask, task, htimer, hmap, hprocess, deref, goOn, TimerCallback.taskStep]
  case wait =>
    refine ⟨false, ?_⟩
    cases hstate : s.threads.timer.currentState <;>
      simp [hat htask, task, htimer, hstate, deref, goOn, TimerCallback.taskStep]
  all_goals
    refine ⟨false, ?_⟩
    simp [hat htask, task, htimer, deref, goOn, TimerCallback.taskStep]

theorem Sound.stop_next (h : Sound pID actions s) (hstop : s.threads.stop ≠ .returned) :
    ∃ s', s.step (.stop s.threads.stop) = .ok (some s') ∧
      s'.threads.stop.distance < s.threads.stop.distance := by
  have htimer : s.timer = true := by
    rw [h.timer, h.stopping hstop]
    rfl
  cases hat : s.threads.stop
  case returned => exact absurd hat hstop
  all_goals
    simp [Library.step, hat, stopTask, htimer, deref, TimerCallback.stopStep,
      TimerCallback.StopStep.distance]

theorem Sound.terminate_next (h : Sound pID actions s) (hstop : s.threads.stop = .returned)
    (hend : s.terminate ≠ .terminated)
    (hjoin : s.terminate = .join → s.threads.task = .completed) :
    ∃ s', s.step (.terminate s.terminate) = .ok (some s') := by
  have hthread := h.thread
  have htimer := h.timer
  have hmap := h.map
  have hat : s.step (.terminate s.terminate) = s.terminateStep s.terminate :=
    if_pos ⟨hstop, rfl⟩
  rw [hat]
  cases hterminate : s.terminate <;> rw [hterminate] at hthread htimer hmap
  case removeProcess =>
    obtain ⟨process, hprocess⟩ := h.removes
    simp [terminateStep, hmap, hprocess, TerminateStep.rank, deref]
  case join => simp [terminateStep, hjoin hterminate]
  case deleteThread => simp [terminateStep, hthread, TerminateStep.rank, deref]
  case deleteTimer => simp [terminateStep, htimer, TerminateStep.rank, deref]
  case deleteMap => exact ⟨_, rfl⟩
  case terminated => exact absurd hterminate hend

def distance (s : Library) : Nat :=
  s.threads.stop.distance + (5 - s.terminate.rank) + remaining s.threads.task

theorem rank_lt {statement : TerminateStep} (h : statement ≠ .terminated) : statement.rank < 5 := by
  cases statement <;> simp_all [TerminateStep.rank]

/-- One of the two threads can bring the end nearer. -/
theorem Sound.next (h : Sound pID actions s) (hfirst : TaskFirst (inTimer actions))
    (hend : s.terminate ≠ .terminated) :
    ∃ a s', s.step a = .ok (some s') ∧ s'.distance < s.distance := by
  by_cases hstop : s.threads.stop = .returned
  · by_cases hwait : s.terminate = .join ∧ s.threads.task ≠ .completed
    · -- it waits for the timer thread
      have hclear : TimerCallback.Action.stop .clearContinue ∈ inTimer actions := by
        rw [h.threads.kept.cleared, hstop]
        simp
      obtain ⟨choice, s', hs⟩ := h.task_next hwait.2
      refine ⟨_, s', hs, ?_⟩
      obtain ⟨threads, process, hthreads, rfl, -⟩ := timer_cases hs
      obtain ⟨hlt, -⟩ := (h.told hfirst hclear).nearer hthreads
      have hsame := (TimerCallback.taskStep_moves (TimerCallback.step_task.mp hthreads).2).stop
      simp only [distance, hsame]
      exact Nat.add_lt_add_left hlt _
    · have hjoin : s.terminate = .join → s.threads.task = .completed := by
        intro hterminate
        by_contra hrun
        exact hwait ⟨hterminate, hrun⟩
      obtain ⟨s', hs⟩ := h.terminate_next hstop hend hjoin
      have hT := terminate_cases hs
      have hrank := rank_lt hend
      refine ⟨_, s', hs, ?_⟩
      simp only [distance, hT.threads, hT.rank.2]
      omega
  · obtain ⟨s', hs, hlt⟩ := h.stop_next hstop
    refine ⟨_, s', hs, ?_⟩
    obtain ⟨threads, hthreads, rfl⟩ := stop_cases hs
    have hsame := (TimerCallback.stopStep_task (TimerCallback.step_stop.mp hthreads).2).1
    simp only [distance, hsame]
    exact Nat.add_lt_add_right (Nat.add_lt_add_right hlt _) _

theorem Run.finishes (h : Run pID actions s) (hfirst : TaskFirst (inTimer actions)) :
    ∃ more s', Run pID (actions ++ more) s' ∧ s'.terminate = .terminated := by
  induction hd : s.distance using Nat.strong_induction_on generalizing actions s with
  | h n ih =>
    by_cases hend : s.terminate = .terminated
    · exact ⟨[], s, by rwa [List.append_nil], hend⟩
    · obtain ⟨a, s₁, hs, hlt⟩ := h.sound.next hfirst hend
      have hfirst₁ : TaskFirst (inTimer (actions ++ [a])) := by
        rw [inTimer_concat]
        exact hfirst.append
      obtain ⟨more, s', h', hend'⟩ := ih _ (hd ▸ hlt) (h.step hs) hfirst₁ rfl
      rw [List.append_assoc] at h'
      exact ⟨[a] ++ more, s', h', hend'⟩

theorem inTimer_append (actions more : List Action) :
    inTimer (actions ++ more) = inTimer actions ++ inTimer more := List.filterMap_append ..

/-- The statements of the timer thread. -/
def timerSteps (actions : List Action) : Nat :=
  actions.countP fun
    | .timer _ _ _ => true
    | _ => false

theorem timerSteps_concat (actions : List Action) (a : Action) :
    timerSteps (actions ++ [a]) = timerSteps actions + timerSteps [a] := List.countP_append

/-- A timer thread that was told to stop in time is soon through. -/
theorem Run.timerSteps_le {more : List Action} (h : Run pID (actions ++ more) s')
    (hfirst : TaskFirst (inTimer actions)) (hclear : .stop .clearContinue ∈ inTimer actions) :
    timerSteps more + remaining s'.threads.task ≤ 13 := by
  have htold : ∀ {more : List Action} {s : Library}, Run pID (actions ++ more) s →
      ToldToStop s.threads := by
    intro more s h
    apply h.sound.told
    · rw [inTimer_append]
      exact hfirst.append
    · rw [inTimer_append]
      exact List.mem_append_left _ hclear
  induction more using List.reverseRecOn generalizing s' with
  | nil =>
    have hbegun := (htold h).begun
    show 0 + _ ≤ 13
    cases htask : s'.threads.task <;> simp_all [remaining]
  | append_singleton more a ih =>
    rw [← List.append_assoc] at h
    obtain ⟨s₁, h₁, hs⟩ := h.last
    have hle := ih h₁
    rw [timerSteps_concat]
    cases a with
    | call op =>
      obtain ⟨process, -, rfl⟩ := call_cases hs
      exact hle
    | timer statement choice env =>
      obtain ⟨threads, process, hthreads, rfl, -⟩ := timer_cases hs
      obtain ⟨hlt, -⟩ := (htold h₁).nearer hthreads
      show timerSteps more + 1 + remaining threads.task ≤ 13
      omega
    | stop statement =>
      obtain ⟨threads, hthreads, rfl⟩ := stop_cases hs
      have hsame := (TimerCallback.stopStep_task (TimerCallback.step_stop.mp hthreads).2).1
      simp only [hsame]
      exact hle
    | terminate statement =>
      rw [(terminate_cases hs).threads]
      exact hle

/-- **`PerfModuleTerminate` returns exactly if the timer thread had begun when it was told to
    stop.** It had if it has set `m_bContinue` before `StopTask` cleared it; then it executes at
    most 13 more statements, whatever the others do, and `join` returns. Otherwise there is no way
    on from `join`, in any continuation. -/
theorem terminates_iff (h : Run pID actions s) :
    ((∃ more s', Run pID (actions ++ more) s' ∧ s'.terminate = .terminated) ↔
      (.stop .clearContinue ∈ inTimer actions → TaskFirst (inTimer actions))) ∧
    (.stop .clearContinue ∈ inTimer actions → TaskFirst (inTimer actions) →
      ∀ more s', Run pID (actions ++ more) s' → timerSteps more ≤ 13) := by
  refine ⟨⟨?_, fun hfirst => ?_⟩, fun hclear hfirst more s' h' =>
    Nat.le_of_add_right_le (h'.timerSteps_le hfirst hclear)⟩
  · rintro ⟨more, s', h', hend⟩ hclear
    by_contra hlate
    have hkept := h'.sound.threads.kept
    have hdone : s'.threads.task = .completed := h'.sound.joined (by rw [hend]; decide)
    have hlate' : ¬ TaskFirst (inTimer (actions ++ more)) := by
      rw [inTimer_append, TimerCallback.taskFirst_append hclear]
      exact hlate
    exact (hkept.lost hlate' (by simp [hdone])).2 hdone
  · by_cases hclear : TimerCallback.Action.stop .clearContinue ∈ inTimer actions
    · exact h.finishes (hfirst hclear)
    · have hkept := h.sound.threads.kept
      by_cases hbegun : s.threads.task = .setContinue
      · -- the timer thread begins in time
        obtain ⟨choice, s₁, hs⟩ := h.sound.task_next (by simp [hbegun])
        rw [hbegun] at hs
        have h₁ := h.step hs
        have hfirst₁ : TaskFirst (inTimer (actions ++ [.timer .setContinue choice {}])) := by
          rw [TimerCallback.taskFirst_of_notMem]
          · simp [inTimer_concat, Action.inTimer, TimerCallback.Action.is]
          · simpa [inTimer_concat, Action.inTimer] using hclear
        obtain ⟨more, s', h', hend⟩ := h₁.finishes hfirst₁
        rw [List.append_assoc] at h'
        exact ⟨_, s', h', hend⟩
      · exact h.finishes ((TimerCallback.taskFirst_of_notMem hclear).mpr (hkept.begun.mp hbegun))

theorem unloadRun_terminates : ∃ s, Run 42 unloadRun s ∧
    ((∃ more s', Run 42 (unloadRun ++ more) s' ∧ s'.terminate = .terminated) ↔
      (.stop .clearContinue ∈ inTimer unloadRun → TaskFirst (inTimer unloadRun))) ∧
    (.stop .clearContinue ∈ inTimer unloadRun → TaskFirst (inTimer unloadRun) →
      ∀ more s', Run 42 (unloadRun ++ more) s' → timerSteps more ≤ 13) := by
  obtain ⟨s, hs⟩ := Option.isSome_iff_exists.mp (show (exec 42 unloadRun).isSome by decide)
  exact ⟨s, run_of_exec hs, terminates_iff (run_of_exec hs)⟩

end Library
end RdkPerf

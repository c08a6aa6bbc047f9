import RdkPerf.Model.Library
import RdkPerf.Proof.Timer
import RdkPerf.Proof.Owners

/-!
# The library is taken down in order

`PerfModuleTerminate` runs while the other threads still do. Nothing that it deletes is used after
that by the timer thread or by itself: it removes the process under the lock, and waits for the
timer thread before it deletes the timer and the map. `Sound` says so, step by step; the run of the
two timer threads and the run of the in-process build are both in it, and what is known of them
applies.
-/

namespace RdkPerf

open Lib
open TimerCallback (TaskStep StopStep TaskFirst)

variable {pID : pid_t} {s s' : Library}

namespace TerminateStep

/-- How far `PerfModuleTerminate` is. -/
def rank : TerminateStep → Nat
  | .removeProcess => 0
  | .join => 1
  | .deleteThread => 2
  | .deleteTimer => 3
  | .deleteMap => 4
  | .terminated => 5

end TerminateStep

namespace Library

/-- The step, in the run of the timer's two threads. -/
def Action.inTimer : Action → Option TimerCallback.Action
  | .timer statement choice _ => some (.task statement choice)
  | .stop statement => some (.stop statement)
  | _ => none

def inTimer (actions : List Action) : List TimerCallback.Action :=
  actions.filterMap Action.inTimer

variable {actions : List Action} {a : Action}

theorem inTimer_concat (actions : List Action) (a : Action) :
    inTimer (actions ++ [a]) = inTimer actions ++ a.inTimer.toList := by
  rw [inTimer, List.filterMap_append]
  cases h : a.inTimer <;> simp [h, inTimer]

/-! ## What a step does -/

theorem call_cases {op : Op} (h : s.step (.call op) = .ok (some s')) :
    ∃ process, s.process.step op = .ok process ∧ s' = { s with process := process } := by
  simp only [step, call] at h
  split at h
  · obtain ⟨_, -, h⟩ := bind_eq_ok.mp h
    obtain ⟨process, hprocess, h⟩ := bind_eq_ok.mp h
    exact ⟨process, hprocess, (Option.some.inj (Except.ok.inj h)).symm⟩
  · obtain ⟨process, hprocess, h⟩ := bind_eq_ok.mp h
    exact ⟨process, hprocess, (Option.some.inj (Except.ok.inj h)).symm⟩

theorem goOn_eq_some {statement : TaskStep} {choice : Bool} :
    s.goOn statement choice = some s' ↔ ∃ threads,
      TimerCallback.taskStep s.threads choice statement = some threads ∧
        s' = { s with threads := threads } := by
  rw [goOn, Option.bind_eq_bind, Option.bind_eq_some_iff]
  simp [eq_comm]

/-- The timer thread executes a statement, and reports the process if it is that one. -/
theorem timer_cases {statement : TaskStep} {choice : Bool} {env : Env}
    (h : s.step (.timer statement choice env) = .ok (some s')) :
    ∃ threads process, TimerCallback.step s.threads (.task statement choice) = some threads ∧
      s' = { s with threads := threads, process := process } ∧
      (process = s.process ∨ ∀ caller,
        s.process.step (.reportProcess caller s.process.pID env) = .ok process) := by
  simp only [step] at h
  split at h
  · next hat =>
    have hgo : ∀ {s₁ : Library}, s₁.threads = s.threads → s₁.goOn statement choice = some s' →
        ∃ threads, TimerCallback.step s.threads (.task statement choice) = some threads ∧
          s' = { s₁ with threads := threads } := by
      intro s₁ hsame hgo
      obtain ⟨threads, hthreads, rfl⟩ := goOn_eq_some.mp hgo
      rw [hsame] at hthreads
      exact ⟨threads, TimerCallback.step_task.mpr ⟨hat.1, hthreads⟩, rfl⟩
    obtain ⟨_, -, h⟩ := bind_eq_ok.mp h
    cases statement
    case findProcess =>
      obtain ⟨_, -, h⟩ := bind_eq_ok.mp h
      have h := Except.ok.inj h
      split at h
      · obtain ⟨threads, hthreads, rfl⟩ := hgo (by rfl) h
        exact ⟨threads, s.process, hthreads, rfl, Or.inl rfl⟩
      · cases h
    case reportProcess =>
      obtain ⟨_, -, h⟩ := bind_eq_ok.mp h
      obtain ⟨process, hprocess, h⟩ := bind_eq_ok.mp h
      obtain ⟨threads, hthreads, rfl⟩ := hgo (by rfl) (Except.ok.inj h)
      exact ⟨threads, process, hthreads, rfl, Or.inr fun _ => hprocess⟩
    all_goals
      obtain ⟨threads, hthreads, rfl⟩ := hgo (by rfl) (Except.ok.inj h)
      exact ⟨threads, s.process, hthreads, rfl, Or.inl rfl⟩
  · cases h

theorem stop_cases {statement : StopStep} (h : s.step (.stop statement) = .ok (some s')) :
    ∃ threads, TimerCallback.step s.threads (.stop statement) = some threads ∧
      s' = { s with threads := threads } := by
  simp only [step] at h
  split at h
  · next hat =>
    obtain ⟨_, -, h⟩ := bind_eq_ok.mp h
    obtain ⟨threads, hthreads, h⟩ := Option.bind_eq_some_iff.mp (Except.ok.inj h)
    obtain rfl := Option.some.inj h
    exact ⟨threads, TimerCallback.step_stop.mpr ⟨hat.1, hthreads⟩, rfl⟩
  · cases h

/-- `PerfModuleTerminate` goes on, to the statement after this one. -/
structure Terminates (s : Library) (statement : TerminateStep) (s' : Library) : Prop where
  threads : s'.threads = s.threads
  stopped : s.threads.stop = .returned
  rank : s.terminate = statement ∧ s'.terminate.rank = statement.rank + 1
  process : if statement = .removeProcess then
      ∀ caller, s.process.step (.closeProcess caller s.process.pID) = .ok s'.process
    else s'.process = s.process
  joined : statement = .join → s.threads.task = .completed
  thread : s'.thread = if statement = .deleteThread then false else s.thread
  timer : s'.timer = if statement = .deleteTimer then false else s.timer
  map : s'.map = if statement = .deleteMap then false else s.map

theorem terminate_cases {statement : TerminateStep}
    (h : s.step (.terminate statement) = .ok (some s')) : s.Terminates statement s' := by
  simp only [step] at h
  split at h
  · next hat =>
    cases statement
    case removeProcess =>
      obtain ⟨_, -, h⟩ := bind_eq_ok.mp h
      obtain ⟨process, hprocess, h⟩ := bind_eq_ok.mp h
      obtain rfl := Option.some.inj (Except.ok.inj h)
      exact ⟨rfl, hat.1, ⟨hat.2, rfl⟩, fun _ => hprocess, by simp, rfl, rfl, rfl⟩
    case join =>
      have h := Except.ok.inj h
      split at h
      · next hjoin =>
        obtain rfl := Option.some.inj h
        exact ⟨rfl, hat.1, ⟨hat.2, rfl⟩, rfl, fun _ => hjoin, rfl, rfl, rfl⟩
      · cases h
    case deleteThread | deleteTimer =>
      obtain ⟨_, -, h⟩ := bind_eq_ok.mp h
      obtain rfl := Option.some.inj (Except.ok.inj h)
      exact ⟨rfl, hat.1, ⟨hat.2, rfl⟩, rfl, by simp, rfl, rfl, rfl⟩
    case deleteMap =>
      obtain rfl := Option.some.inj (Except.ok.inj h)
      exact ⟨rfl, hat.1, ⟨hat.2, rfl⟩, rfl, by simp, rfl, rfl, rfl⟩
    case terminated => cases h
  · cases h

/-! ## What holds in every interleaving -/

structure Sound (pID : pid_t) (actions : List Action) (s : Library) : Prop where
  process : ∃ ops, InProc.run pID ops = .ok s.process
  threads : TimerCallback.Run (inTimer actions) s.threads
  stopped : 0 < s.terminate.rank → s.threads.stop = .returned
  joined : 1 < s.terminate.rank → s.threads.task = .completed
  thread : s.thread = decide (s.terminate.rank < 3)
  timer : s.timer = decide (s.terminate.rank < 4)
  map : s.map = decide (s.terminate.rank < 5)

theorem Sound.init (pID : pid_t) : Sound pID [] (.init pID) where
  process := ⟨[], rfl⟩
  threads := .init
  stopped h := absurd h (Nat.lt_irrefl 0)
  joined h := absurd h (Nat.not_lt_zero 1)
  thread := rfl
  timer := rfl
  map := rfl

theorem Sound.process_step (h : ∃ ops, InProc.run pID ops = .ok s.process) {op : Op}
    {process : InProc} (hstep : s.process.step op = .ok process) :
    ∃ ops, InProc.run pID ops = .ok process := by
  obtain ⟨ops, hops⟩ := h
  exact ⟨ops ++ [op], foldlM_concat_ok.mpr ⟨_, hops, hstep⟩⟩

theorem Sound.step (h : Sound pID actions s) (hs : s.step a = .ok (some s')) :
    Sound pID (actions ++ [a]) s' := by
  cases a with
  | call op =>
    obtain ⟨process, hprocess, rfl⟩ := call_cases hs
    refine ⟨process_step h.process hprocess, ?_, h.stopped, h.joined, h.thread, h.timer, h.map⟩
    rw [inTimer_concat]
    simpa [Action.inTimer] using h.threads
  | timer statement choice env =>
    obtain ⟨threads, process, hthreads, rfl, hprocess⟩ := timer_cases hs
    have hmoves := TimerCallback.taskStep_moves (TimerCallback.step_task.mp hthreads).2
    refine ⟨?_, ?_, fun hrank => ?_, fun hrank => ?_, h.thread, h.timer, h.map⟩
    · rcases hprocess with rfl | hprocess
      · exact h.process
      · exact process_step h.process (hprocess threadA)
    · rw [inTimer_concat]
      exact h.threads.step hthreads
    · exact hmoves.stop.trans (h.stopped hrank)
    · -- it has completed, and executes nothing
      obtain ⟨hat, htask⟩ := TimerCallback.step_task.mp hthreads
      obtain rfl := (h.joined hrank).symm.trans hat
      cases htask
  | stop statement =>
    obtain ⟨threads, hthreads, rfl⟩ := stop_cases hs
    obtain ⟨hat, hstop⟩ := TimerCallback.step_stop.mp hthreads
    have hbefore : ¬ 0 < s.terminate.rank := by
      intro hrank
      obtain rfl := (h.stopped hrank).symm.trans hat
      cases hstop
    refine ⟨h.process, ?_, fun hrank => absurd hrank hbefore,
      fun hrank => absurd (Nat.lt_trans Nat.one_pos hrank) hbefore, h.thread, h.timer, h.map⟩
    rw [inTimer_concat]
    exact h.threads.step hthreads
  | terminate statement =>
    have hT := terminate_cases hs
    obtain ⟨hat, hrank⟩ := hT.rank
    refine ⟨?_, ?_, fun _ => ?_, fun hone => ?_, ?_, ?_, ?_⟩
    · have hprocess := hT.process
      split at hprocess
      · exact process_step h.process (hprocess threadA)
      · rw [hprocess]
        exact h.process
    · rw [inTimer_concat, hT.threads]
      simpa [Action.inTimer] using h.threads
    · rw [hT.threads]
      exact hT.stopped
    · rw [hT.threads]
      by_cases hjoin : statement = .join
      · exact hT.joined hjoin
      · apply h.joined
        rw [hat]
        cases statement <;> simp_all [TerminateStep.rank]
    · rw [hT.thread, h.thread, hrank, hat]
      cases statement <;> rfl
    · rw [hT.timer, h.timer, hrank, hat]
      cases statement <;> rfl
    · rw [hT.map, h.map, hrank, hat]
      cases statement <;> rfl

theorem Run.sound (h : Run pID actions s) : Sound pID actions s := by
  induction h with
  | init => exact .init pID
  | step _ hs ih => exact ih.step hs

/-! ## Interleavings -/

theorem Run.last (h : Run pID (actions ++ [a]) s') :
    ∃ s, Run pID actions s ∧ s.step a = .ok (some s') := by
  generalize hall : actions ++ [a] = all at h
  cases h with
  | init => exact absurd hall (by simp)
  | step h hs =>
    obtain ⟨rfl, hlast⟩ := List.append_inj' hall rfl
    obtain rfl := List.singleton_inj.mp hlast
    exact ⟨_, h, hs⟩

/-- The interleaving, executed. -/
def exec (pID : pid_t) (actions : List Action) : Option Library :=
  actions.foldlM (fun s a => (s.step a).toOption.join) (.init pID)

theorem run_of_exec (h : exec pID actions = some s) : Run pID actions s := by
  induction actions using List.reverseRecOn generalizing s with
  | nil =>
    obtain rfl := Option.some.inj h
    exact .init
  | append_singleton actions a ih =>
    rw [exec, List.foldlM_append] at h
    obtain ⟨s₀, h₀, h⟩ := Option.bind_eq_some_iff.mp h
    obtain ⟨s₁, hs, hlast⟩ := Option.bind_eq_some_iff.mp h
    obtain rfl := Option.some.inj hlast
    exact (ih h₀).step (toOption_eq_some.mp (Option.join_eq_some_iff.mp hs))

/-! ## Nothing is used that is gone -/

theorem Sound.running (h : Sound pID actions s) (hrun : s.threads.task ≠ .completed) :
    s.timer = true ∧ s.map = true := by
  have hrank : s.terminate.rank < 2 := by
    by_contra hmore
    exact hrun (h.joined (Nat.lt_of_succ_le (Nat.le_of_not_lt hmore)))
  rw [h.timer, h.map]
  exact ⟨decide_eq_true (Nat.lt_trans hrank (by decide)),
    decide_eq_true (Nat.lt_trans hrank (by decide))⟩

theorem Sound.stopping (h : Sound pID actions s) (hstop : s.threads.stop ≠ .returned) :
    s.terminate.rank = 0 := Nat.eq_zero_of_not_pos fun hrank => hstop (h.stopped hrank)

theorem Sound.reports (h : Sound pID actions s) (env : Env) :
    ∃ process, s.process.onMem (InProc.RDKPerf_ReportProcess · s.process.pID env) = .ok process := by
  obtain ⟨ops, hops⟩ := h.process
  obtain ⟨process, hprocess, -⟩ :=
    (InProc.run_sim hops).step_ok (show Legal _ (.reportProcess threadA s.process.pID env) from trivial)
  exact ⟨process, hprocess⟩

theorem Sound.removes (h : Sound pID actions s) :
    ∃ process, s.process.onMem (RDKPerf_RemoveProcess · s.process.pID) = .ok process := by
  obtain ⟨ops, hops⟩ := h.process
  obtain ⟨process, hprocess, -⟩ :=
    (InProc.run_sim hops).step_ok (show Legal _ (.closeProcess threadA s.process.pID) from trivial)
  exact ⟨process, hprocess⟩

theorem Sound.task_ok (h : Sound pID actions s) {statement : TaskStep}
    (hrun : s.threads.task ≠ .completed) (choice : Bool) (env : Env) :
    ∃ r, s.task statement choice env = .ok r := by
  obtain ⟨htimer, hmap⟩ := h.running hrun
  obtain ⟨process, hprocess⟩ := h.reports env
  cases statement
  case findProcess => simp [task, htimer, hmap, deref]
  case reportProcess => simp [task, htimer, hmap, deref, hprocess]
  all_goals simp [task, htimer, deref]

/-- **The library is taken down in order.** Whatever the threads of the application, the timer
    thread and the thread in `PerfModuleTerminate` have done, the last two can do what they do next:
    neither of them follows a pointer to an object that was deleted, or to none. -/
theorem safe (h : Run pID actions s) (ha : ∀ op, a ≠ .call op) : ∃ r, s.step a = .ok r := by
  have hS := h.sound
  cases a with
  | call op => exact absurd rfl (ha op)
  | timer statement choice env =>
    simp only [step]
    split
    · next hat => exact hS.task_ok (fun hdone => hat.2 (hat.1.symm.trans hdone)) choice env
    · exact ⟨_, rfl⟩
  | stop statement =>
    simp only [step]
    split
    · next hat =>
      have hrank := hS.stopping fun hdone => hat.2 (hat.1.symm.trans hdone)
      rw [stopTask, hS.timer, hrank]
      exact ⟨_, rfl⟩
    · exact ⟨_, rfl⟩
  | terminate statement =>
    simp only [step]
    split
    · next hat =>
      obtain ⟨-, rfl⟩ := hat
      have hthread := hS.thread
      have htimer := hS.timer
      have hmap := hS.map
      cases hat : s.terminate <;> rw [hat] at hthread htimer hmap
      case removeProcess =>
        obtain ⟨process, hprocess⟩ := hS.removes
        simp [terminateStep, hmap, hprocess, TerminateStep.rank, deref]
      case deleteThread => simp [terminateStep, hthread, TerminateStep.rank, deref]
      case deleteTimer => simp [terminateStep, htimer, TerminateStep.rank, deref]
      all_goals exact ⟨_, rfl⟩
    · exact ⟨_, rfl⟩

/-- The library is unloaded while a call is open and the timer thread is in its loop. -/
def unloadRun : List Action :=
  [.call (.start threadA nameF none {}), .timer .setContinue false {}, .stop .call,
    .timer .testContinue false {}, .stop .clearContinue, .timer .callLoop false {}, .stop .signal,
    .stop .return]

/-- The process goes before the timer thread looks for it. -/
def unloadRunOn : List Action :=
  [.timer .findProcess false {}, .timer .returnLoop false {}]

theorem unloadRun_safe : ∃ s, Run 42 (unloadRun ++ .terminate .removeProcess :: unloadRunOn) s ∧
    s.threads.task = .wait ∧ ∃ r, s.step (.timer .wait false {}) = .ok r := by
  obtain ⟨s, hs, htask⟩ := Option.map_eq_some_iff.mp
    (show (exec 42 (unloadRun ++ .terminate .removeProcess :: unloadRunOn)).map (·.threads.task) =
      some .wait by decide)
  have hrun := run_of_exec hs
  exact ⟨s, hrun, htask, safe hrun (by simp)⟩

/-! ## Nothing is left -/

/-- The heap after calls that leave the process unregistered. -/
def Gone (pID : pid_t) (s : InProc) : Prop :=
  ∃ ops, InProc.run pID ops = .ok s ∧ (Ledger.run pID ops).registered = false

theorem Gone.step {s s' : InProc} {op : Op} (h : Gone pID s) (hs : s.step op = .ok s')
    (hop : ∀ caller szName nThresholdInUS env, op ≠ .start caller szName nThresholdInUS env) :
    Gone pID s' := by
  obtain ⟨ops, hops, hreg⟩ := h
  refine ⟨ops ++ [op], foldlM_concat_ok.mpr ⟨s, hops, hs⟩, ?_⟩
  rw [Ledger.run_concat]
  cases op with
  | start caller szName nThresholdInUS env => exact absurd rfl (hop _ _ _ _)
  | stop caller hPerf env => exact hreg
  | setThreshold caller hPerf nThresholdInUS => exact hreg
  | reportProcess caller p env =>
    rw [Ledger.step]
    split
    · exact hreg
    · exact hreg
  | reportThread caller tID => exact hreg
  | closeThread caller tID => exact hreg
  | closeProcess caller p =>
    rw [Ledger.step]
    split
    · rfl
    · exact hreg

/-- A process that is not registered has nothing. -/
theorem Gone.empty {s : InProc} (h : Gone pID s) :
    (∀ q, s.mem.nodes.get q = none) ∧ (∀ t, s.mem.trees.get t = none) ∧
      ∀ p, RDKPerf_FindProcess s.mem p = none := by
  obtain ⟨ops, hops, hreg⟩ := h
  have hrep := (InProc.run_sim hops).rep
  have hO := InProc.run_owned hops
  have hnone : ∀ p, ((Ledger.run pID ops).world s.pID).registered p = false := by
    intro p
    simp [Ledger.world, hreg]
  have htree : ∀ p tID, s.mem.treePtr p tID = none := by
    intro p tID
    cases hptr : s.mem.treePtr p tID with
    | none => rfl
    | some t =>
      obtain ⟨r, ct, hA⟩ := hrep.present hptr
      have hct := hA.spec.symm.trans (hrep.tree_none_of_unregistered (hnone p))
      exact absurd hct (by simp)
  refine ⟨fun q => ?_, fun t => ?_, fun p => Service.find_unregistered hrep (hnone p)⟩
  · by_contra hq
    obtain ⟨p, tID, π, hπ⟩ := hO.node hq
    obtain ⟨t, ht, -⟩ := Option.bind_eq_some_iff.mp hπ
    exact absurd (ht.symm.trans (htree p tID)) (by simp)
  · by_contra ht
    obtain ⟨p, tID, hptr⟩ := hO.tree ht
    exact absurd (hptr.symm.trans (htree p tID)) (by simp)

/-- **`PerfModuleTerminate` leaves nothing behind.** From its removal of the process on, up to its
    end and whatever the timer thread still does, no node and no tree is allocated and the map is
    empty, as long as the application starts nothing. -/
theorem empties {before after : List Action}
    (h : Run pID (before ++ .terminate .removeProcess :: after) s)
    (hquiet : ∀ caller szName nThresholdInUS env,
      .call (.start caller szName nThresholdInUS env) ∉ after) :
    (∀ q, s.process.mem.nodes.get q = none) ∧ (∀ t, s.process.mem.trees.get t = none) ∧
      ∀ p, RDKPerf_FindProcess s.process.mem p = none := by
  suffices hgone : Gone pID s.process from hgone.empty
  induction after using List.reverseRecOn generalizing s with
  | nil =>
    obtain ⟨s₀, h₀, hs⟩ := h.last
    have hT := terminate_cases hs
    obtain ⟨ops, hops⟩ := h₀.sound.process
    refine ⟨ops ++ [.closeProcess threadA s₀.process.pID],
      foldlM_concat_ok.mpr ⟨_, hops, hT.process threadA⟩, ?_⟩
    rw [Ledger.run_concat, Ledger.step, if_pos (InProc.run_sim hops).pID]
  | append_singleton after a ih =>
    rw [← List.cons_append, ← List.append_assoc] at h
    obtain ⟨s₀, h₀, hs⟩ := h.last
    have hgone := ih h₀ fun caller szName nThresholdInUS env hmem =>
      hquiet caller szName nThresholdInUS env (List.mem_append_left _ hmem)
    cases a with
    | call op =>
      obtain ⟨process, hprocess, rfl⟩ := call_cases hs
      refine hgone.step hprocess ?_
      rintro caller szName nThresholdInUS env rfl
      exact hquiet caller szName nThresholdInUS env (by simp)
    | timer statement choice env =>
      obtain ⟨threads, process, -, rfl, hprocess⟩ := timer_cases hs
      rcases hprocess with rfl | hprocess
      · exact hgone
      · exact hgone.step (hprocess threadA) (by simp)
    | stop statement =>
      obtain ⟨threads, -, rfl⟩ := stop_cases hs
      exact hgone
    | terminate statement =>
      have hprocess := (terminate_cases hs).process
      split at hprocess
      · exact hgone.step (hprocess threadA) (by simp)
      · rw [hprocess]
        exact hgone

theorem unloadRun_empties : ∃ s, Run 42 (unloadRun ++ .terminate .removeProcess :: unloadRunOn) s ∧
    s.process.mem.nodes.next = 2 ∧ (∀ q, s.process.mem.nodes.get q = none) ∧
    (∀ t, s.process.mem.trees.get t = none) ∧ ∀ p, RDKPerf_FindProcess s.process.mem p = none := by
  obtain ⟨s, hs, hnext⟩ := Option.map_eq_some_iff.mp
    (show (exec 42 (unloadRun ++ .terminate .removeProcess :: unloadRunOn)).map
      (·.process.mem.nodes.next) = some 2 by decide)
  have hrun := run_of_exec hs
  exact ⟨s, hrun, hnext, empties hrun (by simp [unloadRunOn])⟩

end Library
end RdkPerf

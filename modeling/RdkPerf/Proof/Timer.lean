import RdkPerf.Model.Timer

/-!
# A stop request can be lost

`StopTask` stops the timer thread by clearing `m_bContinue`, and `Task` begins by setting it. When
`StopTask` comes first, the thread overwrites the request and runs on: the signal that is sent too
makes `Wait` return once, and what `Wait` returns is only logged.

Everything else about the order of the two threads is harmless. `TaskStep.Moves` says what one
statement of the timer thread can do to the flag, and to the place from which `Loop` is called; the
invariant `Kept` and the extension of a run round the loop both come from it.
-/

namespace RdkPerf
namespace TimerCallback

/-- The action executes this statement of the timer thread. -/
def Action.is (statement : TaskStep) : Action → Bool
  | .task executed _ => executed = statement
  | .stop _ => false

/-- The iterations that are started. -/
def starts (actions : List Action) : Nat :=
  actions.countP (Action.is .callLoop)

/-- The iterations that are started once `StopTask` has returned. -/
def startsAfterReturn (actions : List Action) : Nat :=
  starts (actions.dropWhile (· ≠ .stop .return))

/-- `Task` has set `m_bContinue`, and `StopTask` had not cleared it by then. -/
def TaskFirst (actions : List Action) : Prop :=
  (actions.takeWhile (· ≠ .stop .clearContinue)).any (Action.is .setContinue) = true

instance (actions : List Action) : Decidable (TaskFirst actions) := by
  unfold TaskFirst
  infer_instance

variable {actions more : List Action} {a : Action} {s s' : State}

/-! ## What a run so far says -/

theorem all_ne (h : a ∉ actions) : ∀ b ∈ actions, decide (b ≠ a) = true := by
  intro b hb
  apply decide_eq_true
  intro e
  exact h (e ▸ hb)

theorem starts_append : starts (actions ++ more) = starts actions + starts more :=
  List.countP_append

theorem startsAfterReturn_append (h : .stop .return ∈ actions) :
    startsAfterReturn (actions ++ more) = startsAfterReturn actions + starts more := by
  have hne : actions.dropWhile (· ≠ .stop .return) ≠ [] := by
    rw [Ne, List.dropWhile_eq_nil_iff]
    intro hall
    simpa using hall _ h
  unfold startsAfterReturn
  rw [List.dropWhile_append, if_neg (by simpa using hne), starts_append]

theorem startsAfterReturn_of_notMem (h : .stop .return ∉ actions) :
    startsAfterReturn actions = 0 := by
  rw [startsAfterReturn, List.dropWhile_eq_nil_iff.mpr (all_ne h)]
  rfl

/-- The return itself starts nothing. -/
theorem startsAfterReturn_return (h : .stop .return ∉ actions) :
    startsAfterReturn (actions ++ [.stop .return]) = 0 := by
  unfold startsAfterReturn
  rw [List.dropWhile_append_of_pos (all_ne h)]
  rfl

theorem any_of_taskFirst (h : TaskFirst actions) :
    actions.any (Action.is .setContinue) = true := by
  obtain ⟨b, hb, his⟩ := List.any_eq_true.mp h
  exact List.any_eq_true.mpr ⟨b, (List.takeWhile_sublist _).subset hb, his⟩

theorem TaskFirst.append (h : TaskFirst actions) : TaskFirst (actions ++ more) := by
  obtain ⟨b, hb, his⟩ := List.any_eq_true.mp h
  refine List.any_eq_true.mpr ⟨b, ?_, his⟩
  rw [List.takeWhile_append]
  split
  · rename_i he
    rw [(List.takeWhile_prefix _).eq_of_length he] at hb
    exact List.mem_append_left _ hb
  · exact hb

/-- Once `StopTask` has cleared the flag, the order is settled. -/
theorem taskFirst_append (h : .stop .clearContinue ∈ actions) :
    TaskFirst (actions ++ more) ↔ TaskFirst actions := by
  have hne : (actions.takeWhile (· ≠ .stop .clearContinue)).length ≠ actions.length := by
    intro he
    have := List.takeWhile_eq_self_iff.mp
      ((List.takeWhile_prefix (fun a => decide (a ≠ Action.stop .clearContinue))).eq_of_length he)
    simpa using this _ h
  unfold TaskFirst
  rw [List.takeWhile_append, if_neg hne]

theorem taskFirst_of_notMem (h : .stop .clearContinue ∉ actions) :
    TaskFirst actions ↔ actions.any (Action.is .setContinue) = true := by
  rw [TaskFirst, List.takeWhile_eq_self_iff.mpr (all_ne h)]

/-- Nothing that `StopTask` does puts the timer thread first. -/
theorem taskFirst_stop {statement : StopStep} :
    TaskFirst (actions ++ [.stop statement]) ↔ TaskFirst actions := by
  by_cases h : .stop .clearContinue ∈ actions
  · exact taskFirst_append h
  · unfold TaskFirst
    rw [List.takeWhile_append_of_pos (all_ne h), List.takeWhile_eq_self_iff.mpr (all_ne h)]
    by_cases hc : statement = .clearContinue <;> simp [hc, Action.is]

/-! ## What one statement does -/

/-- What a statement of the timer thread does to the flags, and where the thread is after it. -/
structure TaskStep.Moves (s : State) (statement : TaskStep) (s' : State) : Prop where
  stop : s'.stop = s.stop
  bContinue : s'.timer.bContinue =
    if statement = .setContinue then true
    else if statement = .breakLoop then false else s.timer.bContinue
  bTimerContinue : s.bTimerContinue = true → s'.bTimerContinue = true
  begun : s'.task ≠ .setContinue
  /-- `Loop` is called after a test of the flag. -/
  calls : s'.task = .callLoop → s.timer.bContinue = true
  /-- `Task` ends after a test of the flag, or because `Loop` says so. -/
  completes : s'.task = .completed →
    statement = .testContinue ∧ s.timer.bContinue = false ∨ statement = .breakLoop
  breaks : s'.task = .breakLoop → s.bTimerContinue = false

theorem taskStep_moves {statement : TaskStep} {choice : Bool}
    (h : taskStep s choice statement = some s') : statement.Moves s s' := by
  cases statement
  case setContinue | callLoop | reportProcess | resetCount | raiseDelay | countUp | testResult
      | wake | breakLoop =>
    obtain rfl : _ = s' := by simpa [taskStep] using h
    constructor <;> simp [State.leaveWait]
  case testContinue =>
    obtain rfl : _ = s' := by simpa [taskStep] using h
    cases hb : s.timer.bContinue <;> constructor <;> simp [hb]
  case findProcess =>
    obtain rfl : _ = s' := by simpa [taskStep] using h
    cases choice <;> constructor <;> simp
  case compareCount | compareDelay =>
    obtain rfl : _ = s' := by simpa [taskStep] using h
    constructor <;> dsimp only <;> first | split <;> simp | simp
  case returnLoop =>
    obtain rfl : _ = s' := by simpa [taskStep] using h
    cases hb : s.bTimerContinue <;> constructor <;> simp [hb]
  case wait =>
    simp only [taskStep] at h
    split at h
    · obtain rfl : _ = s' := by simpa using h
      constructor <;> simp
    · obtain rfl : _ = s' := by simpa using h
      constructor <;> simp [State.leaveWait]
  case completed => simp [taskStep] at h

theorem step_task {statement : TaskStep} {choice : Bool} :
    step s (.task statement choice) = some s' ↔
      s.task = statement ∧ taskStep s choice statement = some s' := by
  simp only [step]
  split <;> simp_all

theorem step_stop {statement : StopStep} :
    step s (.stop statement) = some s' ↔
      s.stop = statement ∧ stopStep s statement = some s' := by
  simp only [step]
  split <;> simp_all

/-- An interleaving is a list of actions that can be executed one after the other. -/
theorem run_iff : Run actions s ↔ actions.foldlM step .init = some s := by
  constructor
  · intro h
    induction h with
    | init => rfl
    | step _ hs ih => simp [ih, hs]
  · intro h
    induction actions using List.reverseRecOn generalizing s with
    | nil =>
      obtain rfl : State.init = s := by simpa using h
      exact .init
    | append_singleton actions a ih =>
      rw [List.foldlM_append] at h
      obtain ⟨s₁, h₁, hs⟩ := Option.bind_eq_some_iff.mp h
      exact (ih h₁).step (by simpa using hs)

/-! ## What holds along every interleaving -/

/-- The actions so far, against the state they lead to. -/
structure Kept (actions : List Action) (s : State) : Prop where
  begun : s.task ≠ .setContinue ↔ actions.any (Action.is .setContinue) = true
  cleared : .stop .clearContinue ∈ actions ↔ s.stop ≠ .call ∧ s.stop ≠ .clearContinue
  returned : .stop .return ∈ actions ↔ s.stop = .returned
  /-- `Loop` always answers that the timer goes on. -/
  bTimerContinue : s.bTimerContinue = true
  noBreak : s.task ≠ .breakLoop
  /-- A flag that was cleared in time stays clear, -/
  stopped : TaskFirst actions → .stop .clearContinue ∈ actions → s.timer.bContinue = false
  /-- and a flag that was set late stays set. -/
  lost : ¬ TaskFirst actions → s.task ≠ .setContinue →
    s.timer.bContinue = true ∧ s.task ≠ .completed
  /-- At most the iteration that the thread had decided on is started. -/
  atMost : TaskFirst actions → .stop .return ∈ actions →
    startsAfterReturn actions + (if s.task = .callLoop then 1 else 0) ≤ 1

theorem Kept.init : Kept [] .init := by
  constructor <;> simp [State.init]

theorem any_concat :
    (actions ++ [a]).any (Action.is .setContinue) = true ↔
      actions.any (Action.is .setContinue) = true ∨ a.is .setContinue = true := by
  simp

theorem Kept.task {statement : TaskStep} {choice : Bool} (h : Kept actions s)
    (hs : step s (.task statement choice) = some s') :
    Kept (actions ++ [.task statement choice]) s' := by
  obtain ⟨hat, hstep⟩ := step_task.mp hs
  have hm := taskStep_moves hstep
  have hmem : ∀ x, .stop x ∈ actions ++ [Action.task statement choice] ↔ .stop x ∈ actions := by
    simp
  have hne : statement ≠ .breakLoop := hat ▸ h.noBreak
  constructor
  case begun =>
    rw [any_concat, ← h.begun, hat]
    simpa [hm.begun, Action.is] using (Classical.em (statement = .setContinue)).symm
  case cleared => rw [hmem, hm.stop, h.cleared]
  case returned => rw [hmem, hm.stop, h.returned]
  case bTimerContinue => exact hm.bTimerContinue h.bTimerContinue
  case noBreak =>
    intro hb
    have := hm.breaks hb
    simp [h.bTimerContinue] at this
  case stopped =>
    intro hf hc
    rw [hmem] at hc
    rw [taskFirst_append hc] at hf
    have hset : statement ≠ .setContinue := by
      rw [← hat, h.begun]
      exact any_of_taskFirst hf
    rw [hm.bContinue, if_neg hset, if_neg hne]
    exact h.stopped hf hc
  case lost =>
    intro hf _
    have hf' : ¬ TaskFirst actions := fun hf' => hf hf'.append
    by_cases hset : statement = .setContinue
    · refine ⟨by rw [hm.bContinue, if_pos hset], ?_⟩
      intro hc
      simpa [hset] using hm.completes hc
    · obtain ⟨hb, -⟩ := h.lost hf' (hat ▸ hset)
      refine ⟨by rw [hm.bContinue, if_neg hset, if_neg hne, hb], ?_⟩
      intro hc
      simpa [hb, hne] using hm.completes hc
  case atMost =>
    intro hf hr
    rw [hmem] at hr
    have hc : .stop .clearContinue ∈ actions := by
      rw [h.cleared, h.returned.mp hr]
      decide
    have hf' := (taskFirst_append hc).mp hf
    have hcall : s'.task ≠ .callLoop := by
      intro hcall
      have := hm.calls hcall
      simp [h.stopped hf' hc] at this
    have hle := h.atMost hf' hr
    rw [startsAfterReturn_append hr, if_neg hcall]
    simpa [starts, Action.is, hat, List.countP_cons] using hle

/-- What a statement of `StopTask` leaves to the timer thread. -/
theorem stopStep_task {statement : StopStep} (h : stopStep s statement = some s') :
    s'.task = s.task ∧ s'.bTimerContinue = s.bTimerContinue := by
  cases statement <;> simp only [stopStep, Option.some.injEq, reduceCtorEq] at h <;> subst h <;>
    exact ⟨rfl, rfl⟩

theorem stopStep_bContinue {statement : StopStep} (h : stopStep s statement = some s')
    (hc : statement ≠ .clearContinue) : s'.timer.bContinue = s.timer.bContinue := by
  cases statement <;> simp only [stopStep, Option.some.injEq, reduceCtorEq] at h <;>
    first | exact absurd rfl hc | (subst h; rfl)

theorem Kept.stop {statement : StopStep} (h : Kept actions s)
    (hs : step s (.stop statement) = some s') : Kept (actions ++ [.stop statement]) s' := by
  obtain ⟨hat, hstep⟩ := step_stop.mp hs
  obtain ⟨htask, htimer⟩ := stopStep_task hstep
  have hbegun : (actions ++ [Action.stop statement]).any (Action.is .setContinue) =
      actions.any (Action.is .setContinue) := by
    simp [Action.is]
  -- a flag that is cleared now was set already, if it was set in time
  have hcleared : statement = .clearContinue → .stop .clearContinue ∉ actions := by
    intro hc
    rw [h.cleared, hat, hc]
    simp
  constructor
  case begun => rw [htask, hbegun, h.begun]
  case cleared =>
    rw [List.mem_append, h.cleared, hat]
    cases statement <;> simp only [stopStep, Option.some.injEq, reduceCtorEq] at hstep <;>
      subst hstep <;> simp
  case returned =>
    rw [List.mem_append, h.returned, hat]
    cases statement <;> simp only [stopStep, Option.some.injEq, reduceCtorEq] at hstep <;>
      subst hstep <;> simp
  case bTimerContinue => rw [htimer, h.bTimerContinue]
  case noBreak => rw [htask]; exact h.noBreak
  case stopped =>
    intro hf hmem
    by_cases hc : statement = .clearContinue
    · subst hc
      obtain rfl : _ = s' := by simpa [stopStep] using hstep
      rfl
    · rw [stopStep_bContinue hstep hc]
      have hmem' : .stop .clearContinue ∈ actions := by simpa [Ne.symm hc] using hmem
      exact h.stopped (taskFirst_stop.mp hf) hmem'
  case lost =>
    intro hf hset
    rw [htask] at hset ⊢
    have hf' : ¬ TaskFirst actions := mt taskFirst_stop.mpr hf
    obtain ⟨hb, hne⟩ := h.lost hf' hset
    refine ⟨?_, hne⟩
    rw [stopStep_bContinue hstep, hb]
    intro hc
    -- the flag was not cleared yet, so the thread had not begun
    refine hf' ((taskFirst_of_notMem (hcleared hc)).mpr ?_)
    rw [← h.begun]
    exact hset
  case atMost =>
    intro hf hr
    rw [htask]
    by_cases hret : statement = .return
    · subst hret
      have hno : .stop .return ∉ actions := by
        rw [h.returned, hat]
        simp
      rw [startsAfterReturn_return hno]
      split <;> simp
    · have hr' : .stop .return ∈ actions := by simpa [Ne.symm hret] using hr
      have hle := h.atMost (taskFirst_stop.mp hf) hr'
      rw [startsAfterReturn_append hr']
      simpa [starts, Action.is] using hle

theorem Run.kept (h : Run actions s) : Kept actions s := by
  induction h with
  | init => exact .init
  | @step actions s a s' _ hs ih =>
    cases a with
    | task statement choice => exact ih.task hs
    | stop statement => exact ih.stop hs

/-! ## What a lost stop leads to -/

/-- A run whose next step can always be taken nearer to a goal can be extended to the goal. -/
theorem Run.reach {I : List Action → State → Prop} {G : State → Prop} (distance : State → Nat)
    (next : ∀ actions s, Run actions s → I actions s → ¬ G s →
      ∃ a s', TimerCallback.step s a = some s' ∧ I (actions ++ [a]) s' ∧ distance s' < distance s)
    {actions s} (h : Run actions s) (hI : I actions s) :
    ∃ more s', Run (actions ++ more) s' ∧ I (actions ++ more) s' ∧ G s' := by
  induction hd : distance s using Nat.strong_induction_on generalizing actions s with
  | h n ih =>
    by_cases hg : G s
    · exact ⟨[], s, by simpa using h, by simpa using hI, hg⟩
    · obtain ⟨a, s', hs, hI', hlt⟩ := next actions s h hI hg
      obtain ⟨more, s'', h', hI'', hg'⟩ := ih _ (hd ▸ hlt) (h.step hs) hI' rfl
      rw [List.append_assoc] at h' hI''
      exact ⟨[a] ++ more, s'', h', hI'', hg'⟩

def StopStep.distance : StopStep → Nat
  | .call => 4
  | .clearContinue => 3
  | .signal => 2
  | .return => 1
  | .returned => 0

/-- `StopTask` can always be carried to its end, and its order to the timer thread stays. -/
theorem Run.returns {actions s} (h : Run actions s) (hf : ¬ TaskFirst actions) :
    ∃ more s', Run (actions ++ more) s' ∧ ¬ TaskFirst (actions ++ more) ∧ s'.stop = .returned := by
  apply h.reach (I := fun actions _ => ¬ TaskFirst actions) (fun s => s.stop.distance) ?_ hf
  intro actions s _ hf hg
  have hnext : ∃ s', stopStep s s.stop = some s' ∧ s'.stop.distance < s.stop.distance := by
    cases hstop : s.stop
    case returned => exact absurd hstop hg
    all_goals simp [stopStep, StopStep.distance]
  obtain ⟨s', hs, hlt⟩ := hnext
  exact ⟨.stop s.stop, s', step_stop.mpr ⟨rfl, hs⟩, mt taskFirst_stop.mp hf, hlt⟩

/-- The timer thread runs, though `StopTask` has returned. -/
structure Live (actions : List Action) (s : State) : Prop where
  returned : .stop .return ∈ actions
  bContinue : s.timer.bContinue = true
  bTimerContinue : s.bTimerContinue = true
  running : s.task ≠ .setContinue ∧ s.task ≠ .breakLoop ∧ s.task ≠ .completed

/-- How many statements the thread is from the next call of `Loop`. -/
def TaskStep.distance : TaskStep → Nat
  | .callLoop | .breakLoop | .completed => 0
  | .testContinue => 1
  | .setContinue | .testResult => 2
  | .wake => 3
  | .wait => 4
  | .returnLoop => 5
  | .countUp => 6
  | .raiseDelay => 7
  | .compareDelay => 8
  | .resetCount => 9
  | .reportProcess => 10
  | .compareCount => 11
  | .findProcess => 12

/-- The next statement of a thread that runs on brings it nearer to a call of `Loop`, if it is not
    one. -/
theorem Live.nearer (h : Live actions s) (hc : s.task ≠ .callLoop) :
    ∃ s', step s (.task s.task false) = some s' ∧ s'.task.distance < s.task.distance := by
  simp only [step, if_true]
  obtain ⟨-, hcontinue, htimer, hset, hbreak, hdone⟩ := h
  cases htask : s.task
  case setContinue | breakLoop | completed | callLoop => contradiction
  case wait =>
    cases hstate : s.timer.currentState <;>
      simp [taskStep, hstate, State.leaveWait, TaskStep.distance]
  case compareCount | compareDelay =>
    simp only [taskStep, Option.some.injEq, exists_eq_left']
    split <;> simp [TaskStep.distance]
  all_goals simp [taskStep, hcontinue, htimer, State.leaveWait, TaskStep.distance]

theorem Live.runsOn (h : Live actions s) {statement : TaskStep} {choice : Bool}
    (hs : step s (.task statement choice) = some s') :
    Live (actions ++ [.task statement choice]) s' := by
  obtain ⟨hat, hstep⟩ := step_task.mp hs
  have hm := taskStep_moves hstep
  have hset : statement ≠ .setContinue := hat ▸ h.running.1
  have hbreak : statement ≠ .breakLoop := hat ▸ h.running.2.1
  refine ⟨by simp [h.returned], ?_, hm.bTimerContinue h.bTimerContinue, hm.begun, ?_, ?_⟩
  · rw [hm.bContinue, if_neg hset, if_neg hbreak, h.bContinue]
  · intro hb
    have := hm.breaks hb
    simp [h.bTimerContinue] at this
  · intro hc
    simpa [h.bContinue, hbreak] using hm.completes hc

theorem Live.next (actions : List Action) (s : State) (_ : Run actions s) (h : Live actions s)
    (hc : s.task ≠ .callLoop) :
    ∃ a s', TimerCallback.step s a = some s' ∧ Live (actions ++ [a]) s' ∧
      s'.task.distance < s.task.distance := by
  obtain ⟨s', hs, hlt⟩ := h.nearer hc
  exact ⟨_, s', hs, h.runsOn hs, hlt⟩

/-- Once the order was wrong, there is no bound on how often the thread still calls `Loop`. -/
theorem Run.runsOn {actions s} (h : Run actions s) (hf : ¬ TaskFirst actions) (n : Nat) :
    ∃ more s', Run (actions ++ more) s' ∧ Live (actions ++ more) s' ∧
      n ≤ startsAfterReturn (actions ++ more) := by
  induction n with
  | zero =>
    obtain ⟨more, s₁, h₁, hf₁, hstop⟩ := h.returns hf
    have hret := h₁.kept.returned.mpr hstop
    have htimer := h₁.kept.bTimerContinue
    by_cases hset : s₁.task = .setContinue
    · -- the thread begins only now
      have hs : TimerCallback.step s₁ (.task .setContinue false) = some
          { s₁ with timer := { s₁.timer with bContinue := true }, task := .testContinue } :=
        step_task.mpr ⟨hset, rfl⟩
      have h₂ := h₁.step hs
      rw [List.append_assoc] at h₂
      refine ⟨_, _, h₂, ⟨?_, rfl, htimer, by simp⟩, Nat.zero_le _⟩
      rw [← List.append_assoc]
      exact List.mem_append_left _ hret
    · obtain ⟨hb, hdone⟩ := h₁.kept.lost hf₁ hset
      exact ⟨more, s₁, h₁, ⟨hret, hb, htimer, hset, h₁.kept.noBreak, hdone⟩, Nat.zero_le _⟩
  | succ n ih =>
    obtain ⟨more, s₁, h₁, hl₁, hn⟩ := ih
    obtain ⟨more', s₂, h₂, hl₂, hcall⟩ :=
      h₁.reach (I := Live) (G := fun s => s.task = .callLoop) (fun s => s.task.distance)
        Live.next hl₁
    have hs : TimerCallback.step s₂ (.task .callLoop false) = some
        { s₂ with bTimerContinue := true, task := .findProcess } :=
      step_task.mpr ⟨hcall, rfl⟩
    have hcount : startsAfterReturn (_ ++ (more' ++ [.task .callLoop false])) = _ :=
      startsAfterReturn_append hl₁.returned
    have hone : 1 ≤ starts (more' ++ [Action.task .callLoop false]) := by
      rw [starts_append]
      exact Nat.le_add_left _ _
    have h₃ := h₂.step hs
    have hl₃ := hl₂.runsOn hs
    rw [List.append_assoc, List.append_assoc] at h₃ hl₃
    refine ⟨_, _, h₃, hl₃, ?_⟩
    rw [← List.append_assoc, hcount]
    omega

/-! ## The stop request -/

/-- A stop request is kept when `Task` has begun before `StopTask` clears the flag, and otherwise
    it can be lost. -/
theorem stop_kept_iff {actions s} (h : Run actions s) :
    (∀ more s', Run (actions ++ more) s' → startsAfterReturn (actions ++ more) ≤ 1) ↔
      TaskFirst actions := by
  constructor
  · intro hle
    by_contra hf
    obtain ⟨more, s', h', -, hn⟩ := h.runsOn hf 2
    exact absurd (hle more s' h') (by omega)
  · intro hf more s' h'
    by_cases hr : .stop .return ∈ actions ++ more
    · exact Nat.le_of_add_right_le (h'.kept.atMost hf.append hr)
    · rw [startsAfterReturn_of_notMem hr]
      exact Nat.zero_le _

/-- `Task` has begun when `StopTask` runs. -/
def timelyStop : List Action :=
  [.task .setContinue false, .stop .call, .stop .clearContinue, .stop .signal, .stop .return]

theorem timelyStop_kept : TaskFirst timelyStop ∧
    ∀ more s', Run (timelyStop ++ more) s' → startsAfterReturn (timelyStop ++ more) ≤ 1 :=
  ⟨by decide, (stop_kept_iff (run_iff.mpr rfl)).mpr (by decide)⟩

/-- `StopTask` before `Task` has begun, then two rounds of the timer thread. -/
def earlyStop : List Action :=
  [.stop .call, .stop .clearContinue, .stop .signal, .stop .return,
    .task .setContinue false, .task .testContinue false,
    .task .callLoop false, .task .findProcess false, .task .returnLoop false,
    .task .wait false, .task .testResult false, .task .testContinue false,
    .task .callLoop false]

theorem earlyStop_lost : ¬ ∀ actions s, Run actions s → startsAfterReturn actions ≤ 1 := by
  intro h
  have hrun : ∃ s, earlyStop.foldlM step .init = some s :=
    Option.isSome_iff_exists.mp (by decide)
  obtain ⟨s, hs⟩ := hrun
  have hle := h earlyStop s (run_iff.mpr hs)
  exact absurd hle (by decide)

end TimerCallback
end RdkPerf

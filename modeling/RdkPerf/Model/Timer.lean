import Mathlib

/-!
# The timer thread (`rdk_perf.cpp`)

`TimerCallback` is worked on by two threads: the one `PerfModuleInit` creates, which runs `Task`,
and one that calls `StopTask`. Here each statement of `Task`, `Loop` and `StopTask` is one step, and
so is each section of `Signal` and `Wait` under the mutex; a step is taken by whichever thread the
action names. `wait_for` may time out or return at any moment, notified or not.

What `Loop` does to the process map is the subject of the other files. Here it asks the map one
question, whether the process is there, and any answer is possible.
-/

namespace RdkPerf

def TIMER_INTERVAL_SECONDS : UInt32 := 10
def MAX_DELAY : UInt32 := 600

inductive SignalResult where
  | waiting
  | timeout
  | exitLoop
deriving DecidableEq, Repr

structure TimerCallback where
  bContinue : Bool := false
  nDelay : UInt32 := 0
  nCount : UInt32 := 0
  currentState : SignalResult := .waiting
deriving DecidableEq, Repr

namespace TimerCallback

/-- The next statement of the thread that runs `Task`; from `callLoop` to `returnLoop` it is
    in `Loop`. -/
inductive TaskStep where
  /-- `m_bContinue = true` -/
  | setContinue
  /-- `while(m_bContinue == true)` -/
  | testContinue
  /-- `Loop()`: `bTimerContinue = true` -/
  | callLoop
  /-- `if(RDKPerf_FindProcess(getpid()) != NULL)` -/
  | findProcess
  /-- `if(m_nCount > m_nDelay)` -/
  | compareCount
  | reportProcess
  /-- `m_nCount = 0` -/
  | resetCount
  /-- `if(m_nDelay < MAX_DELAY)` -/
  | compareDelay
  /-- `m_nDelay += 5` -/
  | raiseDelay
  /-- `m_nCount++` -/
  | countUp
  /-- `return bTimerContinue`, and the test `if(!Loop())` -/
  | returnLoop
  /-- `m_bContinue = false; break` -/
  | breakLoop
  /-- `Wait`, up to its return or until it blocks in `wait_for` -/
  | wait
  /-- `Wait`, after `wait_for` -/
  | wake
  /-- `if(result == EXIT_LOOP)` -/
  | testResult
  | completed
deriving DecidableEq, Repr

/-- The next statement of the thread that calls `StopTask`. -/
inductive StopStep where
  /-- `StopTask` is called, and logs. -/
  | call
  /-- `m_bContinue = false` -/
  | clearContinue
  /-- `Signal(EXIT_LOOP)` -/
  | signal
  | return
  | returned
deriving DecidableEq, Repr

/-- A statement that is executed. `choice` is what the thread does not decide: whether the process
    is found, and whether `wait_for` timed out. -/
inductive Action where
  | task (statement : TaskStep) (choice : Bool)
  | stop (statement : StopStep)
deriving DecidableEq, Repr

/-- The object, and where the two threads are in their calls, with the locals of `Task`. -/
structure State where
  timer : TimerCallback := {}
  task : TaskStep := .setContinue
  bTimerContinue : Bool := true
  result : SignalResult := .waiting
  stop : StopStep := .call
deriving DecidableEq, Repr

/-- After `PerfModuleInit` has created the object and the thread. -/
def State.init : State := {}

/-- What `Wait` does last: it answers `result`, and waits for the next signal. -/
def State.leaveWait (s : State) (result : SignalResult) : State :=
  { s with
    result := result
    timer := { s.timer with currentState := .waiting }
    task := .testResult }

def taskStep (s : State) (choice : Bool) : TaskStep → Option State
  | .setContinue => some { s with timer := { s.timer with bContinue := true }, task := .testContinue }
  | .testContinue => some { s with task := if s.timer.bContinue then .callLoop else .completed }
  | .callLoop => some { s with bTimerContinue := true, task := .findProcess }
  | .findProcess => some { s with task := if choice then .compareCount else .returnLoop }
  | .compareCount =>
    some { s with task := if s.timer.nCount > s.timer.nDelay then .reportProcess else .countUp }
  | .reportProcess => some { s with task := .resetCount }
  | .resetCount => some { s with timer := { s.timer with nCount := 0 }, task := .compareDelay }
  | .compareDelay =>
    some { s with task := if s.timer.nDelay < MAX_DELAY then .raiseDelay else .countUp }
  | .raiseDelay =>
    some { s with timer := { s.timer with nDelay := s.timer.nDelay + 5 }, task := .countUp }
  | .countUp =>
    some { s with timer := { s.timer with nCount := s.timer.nCount + 1 }, task := .returnLoop }
  | .returnLoop => some { s with task := if s.bTimerContinue then .wait else .breakLoop }
  | .breakLoop => some { s with timer := { s.timer with bContinue := false }, task := .completed }
  | .wait =>
    if s.timer.currentState = .waiting then
      some { s with task := .wake }
    else
      -- state change before the lock was called
      some (s.leaveWait s.timer.currentState)
  | .wake => some (s.leaveWait (if choice then .timeout else s.timer.currentState))
  -- the result is only logged
  | .testResult => some { s with task := .testContinue }
  | .completed => none

def stopStep (s : State) : StopStep → Option State
  | .call => some { s with stop := .clearContinue }
  | .clearContinue => some { s with timer := { s.timer with bContinue := false }, stop := .signal }
  | .signal => some { s with timer := { s.timer with currentState := .exitLoop }, stop := .return }
  | .return => some { s with stop := .returned }
  | .returned => none

/-- A thread executes the statement it is at. -/
def step (s : State) : Action → Option State
  | .task statement choice => if s.task = statement then taskStep s choice statement else none
  | .stop statement => if s.stop = statement then stopStep s statement else none

/-- An interleaving of the two threads, and the state it leads to. -/
inductive Run : List Action → State → Prop where
  | init : Run [] .init
  | step {actions s a s'} (h : Run actions s) (hs : step s a = some s') : Run (actions ++ [a]) s'

/-! ## `Loop` as one call -/

/-- `Loop()`, on the counters: the object after it, and whether it reported the process. `found` is
    what `RDKPerf_FindProcess` answers. -/
def loop (t : TimerCallback) (found : Bool) : TimerCallback × Bool :=
  if found then
    if t.nCount > t.nDelay then
      let t := { t with nCount := 0 }
      let t := if t.nDelay < MAX_DELAY then { t with nDelay := t.nDelay + 5 } else t
      ({ t with nCount := t.nCount + 1 }, true)
    else
      ({ t with nCount := t.nCount + 1 }, false)
  else
    (t, false)

/-- `Next performance log in %d seconds` -/
def announced (t : TimerCallback) : UInt32 := t.nDelay * TIMER_INTERVAL_SECONDS

/-- The object after iterations that find the process or do not. -/
def afterLoops (t : TimerCallback) : (found : List Bool) → TimerCallback
  | [] => t
  | f :: found => afterLoops (t.loop f).1 found

/-- … from the first on. -/
def loops (found : List Bool) : TimerCallback := afterLoops {} found

/-- Which of the iterations report. -/
def reports (t : TimerCallback) : (found : List Bool) → List Bool
  | [] => []
  | f :: found => (t.loop f).2 :: reports (t.loop f).1 found

/-- The delays they announce, in seconds. -/
def announcements (t : TimerCallback) : (found : List Bool) → List UInt32
  | [] => []
  | f :: found =>
    (if (t.loop f).2 then [(t.loop f).1.announced] else []) ++ announcements (t.loop f).1 found

end TimerCallback
end RdkPerf

import RdkPerf.Model.Api
import RdkPerf.Model.Timer

/-!
# The library in a process, from load to unload (`rdk_perf.cpp`)

`PerfModuleInit` makes the process map, the timer and its thread. `PerfModuleTerminate` takes them
down again: it stops the timer, removes the process, waits for the timer thread, deletes what
`PerfModuleInit` made, and last the map. It runs while the timer thread and the threads of the
application do what they do, so here each of its statements is a step of its own, like those of
`Task`; a call of the application is one step, as it has the lock.

What is used through a pointer has to be there: the timer, the map, the thread. The timer thread
reads the map itself now, and what it finds is no longer free.
-/

namespace RdkPerf

open TimerCallback (TaskStep StopStep)

/-- The next statement of `PerfModuleTerminate`, from the return of `StopTask` on. -/
inductive TerminateStep where
  | removeProcess
  /-- `s_thread->join()` -/
  | join
  /-- `delete s_thread` -/
  | deleteThread
  /-- `delete s_timer` -/
  | deleteTimer
  | deleteMap
  | terminated
deriving DecidableEq, Repr

/-- `process` is the heap: the process map and what is under it, and the records. `map` is whether
    `sp_ProcessMap` is not `NULL`, and `timer` and `thread` whether the objects are there. -/
structure Library where
  process : InProc
  map : Bool := true
  timer : Bool := true
  thread : Bool := true
  threads : TimerCallback.State := .init
  terminate : TerminateStep := .removeProcess

/-- Whether the call looks for a process in the map. -/
def Op.usesMap : Op → Bool
  | .stop _ _ _ => false
  | .setThreshold _ _ _ => false
  | _ => true

namespace Library

/-- After `PerfModuleInit`, in the process `pID`. -/
def init (pID : pid_t) : Library := { process := .init pID }

/-- A step of the application, of the timer thread, or of the thread in `PerfModuleTerminate`.
    `choice` is what a test of the timer thread comes to. -/
inductive Action where
  | call (op : Op)
  | timer (statement : TaskStep) (choice : Bool) (env : Env)
  | stop (statement : StopStep)
  | terminate (statement : TerminateStep)

/-- A pointer is followed. -/
def deref (live : Bool) (e : Fault) : Except Fault Unit := if live then pure () else throw e

def call (s : Library) (op : Op) : Except Fault (Option Library) := do
  if op.usesMap then
    deref s.map .nullPointer
  let process ← s.process.step op
  pure (some { s with process := process })

/-- The timer thread goes on after a statement. -/
def goOn (s : Library) (statement : TaskStep) (choice : Bool) : Option Library := do
  let threads ← TimerCallback.taskStep s.threads choice statement
  pure { s with threads := threads }

/-- `Task` and `Loop`, whose object is the timer. -/
def task (s : Library) (statement : TaskStep) (choice : Bool) (env : Env) :
    Except Fault (Option Library) := do
  deref s.timer .dangling
  match statement with
  | .findProcess =>
    deref s.map .nullPointer
    let found := (RDKPerf_FindProcess s.process.mem s.process.pID).isSome
    pure (if choice = found then s.goOn statement choice else none)
  | .reportProcess =>
    deref s.map .nullPointer
    let process ← s.process.onMem (InProc.RDKPerf_ReportProcess · s.process.pID env)
    pure ({ s with process := process }.goOn statement choice)
  | _ => pure (s.goOn statement choice)

/-- `s_timer->StopTask()` -/
def stopTask (s : Library) (statement : StopStep) : Except Fault (Option Library) := do
  deref s.timer .dangling
  pure do
    let threads ← TimerCallback.stopStep s.threads statement
    pure { s with threads := threads }

/-- `PerfModuleInit` made a thread, so `s_thread` is joinable until it is joined. -/
def terminateStep (s : Library) : TerminateStep → Except Fault (Option Library)
  | .removeProcess => do
    deref s.map .nullPointer
    let process ← s.process.onMem (RDKPerf_RemoveProcess · s.process.pID)
    pure (some { s with process := process, terminate := .join })
  -- it waits until `Task` has returned
  | .join =>
    pure (if s.threads.task = .completed then some { s with terminate := .deleteThread } else none)
  | .deleteThread => do
    deref s.thread .dangling
    pure (some { s with thread := false, terminate := .deleteTimer })
  | .deleteTimer => do
    deref s.timer .dangling
    pure (some { s with timer := false, terminate := .deleteMap })
  | .deleteMap => pure (some { s with map := false, terminate := .terminated })
  | .terminated => pure none

/-- `none` if the thread is somewhere else, or has to wait. -/
def step (s : Library) : Action → Except Fault (Option Library)
  | .call op => s.call op
  | .timer statement choice env =>
    if s.threads.task = statement ∧ statement ≠ .completed then s.task statement choice env
    else pure none
  | .stop statement =>
    if s.threads.stop = statement ∧ statement ≠ .returned then s.stopTask statement else pure none
  | .terminate statement =>
    if s.threads.stop = .returned ∧ s.terminate = statement then s.terminateStep statement
    else pure none

/-- An interleaving of the threads, and the state it leads to. -/
inductive Run (pID : pid_t) : List Action → Library → Prop where
  | init : Run pID [] (.init pID)
  | step {actions s a s'} (h : Run pID actions s) (hs : s.step a = .ok (some s')) :
    Run pID (actions ++ [a]) s'

end Library
end RdkPerf

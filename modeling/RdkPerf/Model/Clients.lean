import RdkPerf.Model.Api

/-!
# Several clients and the service (`rdk_perf.cpp`, `perfservice.cpp`)

The processes that use the remote build, the queue they send to, and the service that empties it,
with the processes starting, calling and terminating in any order. A pid can be given again once
its process is gone. No message is lost and none overtakes another.
-/

namespace RdkPerf

open Lib

/-- A process of the remote build. It has a process map of its own, as every process that loads the
    library has, though nothing in this build writes to it. -/
structure ClientProcess where
  client : Client
  mem : Mem

namespace ClientProcess

/-- `PerfModuleInit()`. -/
def PerfModuleInit (pID : pid_t) : ClientProcess := ⟨.init pID, .init⟩

def step (p : ClientProcess) (op : Op) : Except Fault ClientProcess := do
  let client ← p.client.step op
  pure { p with client := client }

/-- `PerfModuleTerminate()`: the timer thread is joined, the process is removed from its own map,
    and the queue is released. -/
def PerfModuleTerminate (p : ClientProcess) : Except Fault ClientProcess := do
  let mem ← RDKPerf_RemoveProcess p.mem p.client.pID
  pure { p with mem := mem }

end ClientProcess

namespace Clients

/-- The processes that have not terminated, what they sent that is not handled yet, oldest first,
    and the service. -/
structure State where
  live : pid_t → Option ClientProcess
  queue : List PerfMessage
  service : Service.State

inductive Action where
  /-- A process starts, and is given this pid. -/
  | init (pID : pid_t)
  | call (pID : pid_t) (op : Op)
  /-- The process terminates through `PerfModuleTerminate`. -/
  | terminate (pID : pid_t)
  /-- The service handles the oldest message. -/
  | handle (env : Env)

namespace State

def init : State := ⟨fun _ => none, [], .init⟩

def setLive (s : State) (pID : pid_t) (p : Option ClientProcess) : State :=
  { s with live := fun q => if q = pID then p else s.live q }

/-- Queue what the process has sent since it was `p`. -/
def send (s : State) (p p' : ClientProcess) : State :=
  { s with queue := s.queue ++ p'.client.sent.drop p.client.sent.length }

end State

def step (s : State) : Action → Option State
  | .init pID =>
    match s.live pID with
    | some _ => none
    | none => some (s.setLive pID (some (.PerfModuleInit pID)))
  | .call pID op => do
    let p ← s.live pID
    let p' ← (p.step op).toOption
    some ((s.setLive pID (some p')).send p p')
  | .terminate pID => do
    let p ← s.live pID
    let p' ← p.PerfModuleTerminate.toOption
    some ((s.setLive pID none).send p p')
  | .handle env =>
    match s.queue with
    | [] => none
    | msg :: queue => do
      let service ← (Service.step s.service ⟨msg, env⟩).toOption
      some { s with queue := queue, service := service }

def run (actions : List Action) : Option State := actions.foldlM step .init

end Clients
end RdkPerf

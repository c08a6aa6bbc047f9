import RdkPerf.Lib.Channels
import RdkPerf.Model.Clients
import RdkPerf.Model.RunLoop

/-!
# The service, its clients and the kernel (`perfservice.cpp`, `rdk_perf_msgqueue.cpp`)

What `Model.Clients` takes for granted is done here: `main` of the service looks for the queue,
unlinks it, makes it, runs its loop and unlinks the queue again, and may be started twice or be
killed; a client opens what has the name at that moment, if anything has, and never looks again.
The queue holds `mq_maxmsg` messages, and `mq_send` waits for room: a call that waits is a step that
is not there.

`PerfMsgQueue` sends every message with one priority, so a queue is first in, first out. A client
whose `mq_open` failed has `(mqd_t)-1`, and each of its sends fails and is forgotten.
-/

namespace RdkPerf

open Lib

/-- `new_attr.mq_maxmsg`. -/
def mq_maxmsg : Nat := 10

abbrev Kernel := Channels PerfMessage

namespace Deployment

/-- Where `main` of a `perfservice` is. -/
inductive Main where
  /-- `IsQueueCreated` is next. -/
  | checking
  /-- There was no queue: `PerfMsgQueue(…, true)` is next, which unlinks -/
  | unlinking
  /-- and opens with `O_CREAT`. -/
  | opening
  /-- In `RunLoop`, with the descriptor, the locals of the loop, and the process map. -/
  | serving (m_queue : Nat) (loop : RunLoop.State) (service : Service.State)
  | exited

/-- What `mq_timedreceive` comes back with: a message if there is one, and else the end of the time
    or of the wait. -/
inductive Arrival where
  | message (env : Env)
  | timedOut
  | failed (errnum : Int32) (h : errnum ≠ ETIMEDOUT)

namespace Main

/-- The next system call of `main` outside the loop; `errno` is what it leaves there. -/
def advance (kernel : Kernel) (errno : Int32) : Main → Option (Kernel × Main)
  | .checking => if kernel.named.isSome then some (kernel, .exited) else some (kernel, .unlinking)
  | .unlinking => some (kernel.unlink, .opening)
  | .opening =>
    let (kernel, m_queue) := kernel.create mq_maxmsg
    some (kernel, .serving m_queue (RunLoop.init errno) .init)
  | .serving _ loop _ =>
    -- `pQueue->Release()` is the last one, and deletes the queue
    if loop.bContinue then none else some (kernel.unlink, .exited)
  | .exited => none

/-- A turn of the loop, with what `HandleMessage` makes of the message it is given. -/
def turn (loop : RunLoop.State) (service : Service.State) (outcome : Outcome) (env : Env) :
    Except Fault (RunLoop.State × Service.State) := do
  let loop' := RunLoop.step loop outcome
  let handled := loop'.handled.drop loop.handled.length
  let service ← handled.foldlM (fun s msg => Service.step s ⟨msg, env⟩) service
  pure (loop', service)

/-- `ReceiveMessage` and the rest of the turn. -/
def receive (kernel : Kernel) (arrival : Arrival) : Main → Option (Kernel × Main)
  | .serving m_queue loop service =>
    if loop.bContinue then
      match arrival with
      | .message env => do
        let (msg, kernel) ← kernel.receive m_queue
        let (loop, service) ← (turn loop service (.message msg) env).toOption
        some (kernel, .serving m_queue loop service)
      | .timedOut => do
        guard (kernel.messages m_queue = [])
        let (loop, service) ← (turn loop service .timedOut {}).toOption
        some (kernel, .serving m_queue loop service)
      | .failed errnum h => do
        guard (kernel.messages m_queue = [])
        let (loop, service) ← (turn loop service (.failed errnum h) {}).toOption
        some (kernel, .serving m_queue loop service)
    else
      none
  | _ => none

end Main

/-- A process of the remote build, and `m_queue` of its `s_pQueue`: `none` is `(mqd_t)-1`. -/
structure Process where
  client : Client
  m_queue : Option Nat

structure State where
  kernel : Kernel
  services : pid_t → Option Main
  live : pid_t → Option Process

inductive Action where
  /-- A `perfservice` is started. -/
  | spawn (pID : pid_t)
  | advance (pID : pid_t) (errno : Int32)
  | receive (pID : pid_t) (arrival : Arrival)
  /-- A `perfservice` ends where it is. -/
  | kill (pID : pid_t)
  /-- A process of the remote build starts. -/
  | init (pID : pid_t)
  | call (pID : pid_t) (op : Op)
  | terminate (pID : pid_t)

namespace State

def init : State := ⟨.init, fun _ => none, fun _ => none⟩

def setService (s : State) (pID : pid_t) (kernel : Kernel) (main : Main) : State :=
  { s with kernel := kernel, services := fun p => if p = pID then some main else s.services p }

def setLive (s : State) (pID : pid_t) (process : Option Process) : State :=
  { s with live := fun p => if p = pID then process else s.live p }

end State

/-- `mq_send` on a descriptor; `none` where it waits. -/
def mq_send (kernel : Kernel) (m_queue : Option Nat) (msg : PerfMessage) : Option Kernel :=
  match m_queue with
  | none => some kernel
  | some q => kernel.send q msg

/-- A call of a process: the first object opens the queue, and what the call sends is sent. -/
def Process.call (process : Process) (kernel : Kernel) (op : Op) : Option (Kernel × Process) := do
  let client ← (process.client.step op).toOption
  let m_queue := if process.client.queue then process.m_queue
    else if client.queue then kernel.named else none
  let sent := client.sent.drop process.client.sent.length
  let kernel ← sent.foldlM (fun kernel msg => mq_send kernel m_queue msg) kernel
  some (kernel, ⟨client, m_queue⟩)

def step (s : State) : Action → Option State
  | .spawn pID =>
    match s.services pID with
    | some _ => none
    | none => some (s.setService pID s.kernel .checking)
  | .advance pID errno => do
    let main ← s.services pID
    let (kernel, main) ← main.advance s.kernel errno
    some (s.setService pID kernel main)
  | .receive pID arrival => do
    let main ← s.services pID
    let (kernel, main) ← main.receive s.kernel arrival
    some (s.setService pID kernel main)
  | .kill pID => do
    let _ ← s.services pID
    some (s.setService pID s.kernel .exited)
  | .init pID =>
    match s.live pID with
    | some _ => none
    | none => some (s.setLive pID (some ⟨.init pID, none⟩))
  | .call pID op => do
    let process ← s.live pID
    let (kernel, process) ← process.call s.kernel op
    some ({ s with kernel := kernel }.setLive pID (some process))
  | .terminate pID => do
    let _ ← s.live pID
    some (s.setLive pID none)

def run (actions : List Action) : Option State := actions.foldlM step .init

end Deployment
end RdkPerf

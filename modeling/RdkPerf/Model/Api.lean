import RdkPerf.Model.Service

/-!
# The two builds of the library (`rdk_perf_record.cpp`, `rdk_perf.cpp`)

`RDKPerf` is `RDKPerfInProc` or `RDKPerfRemote`: the first holds a `PerfRecord`, whose constructor
and destructor work on the trees of the calling process; the second sends messages to the service.
Every call is one step, as it runs under the global lock.

A handle is the address of the object `RDKPerfStart` allocates. Both builds allocate one object a
start, so the `n`-th start answers the same handle in both.
-/

namespace RdkPerf

open Lib

abbrev Handle := Nat

/-- A call of the public interface, with the thread that makes it and the clocks it reads.
    `start` is `RDKPerfStart`, or the constructor of an `RDKPerf` object with its threshold;
    `stop` is `RDKPerfStop`, or the object's destructor. -/
inductive Op where
  | start (caller : Caller) (szName : CString) (nThresholdInUS : Option UInt32) (env : Env)
  | stop (caller : Caller) (hPerf : Handle) (env : Env)
  | setThreshold (caller : Caller) (hPerf : Handle) (nThresholdInUS : UInt32)
  | reportProcess (caller : Caller) (pID : pid_t) (env : Env)
  | reportThread (caller : Caller) (tID : pthread_t)
  | closeThread (caller : Caller) (tID : pthread_t)
  | closeProcess (caller : Caller) (pID : pid_t)

/-! ## `PerfRecord` -/

namespace PerfRecord

/-- `PerfRecord(elementName)` in the process `pID`. -/
def construct (m : Mem) (pID : pid_t) (elementName : Name) (caller : Caller) (env : Env) :
    Except Fault (Mem × PerfRecord) := do
  let (m, pProcess) := match RDKPerf_FindProcess m pID with
    | some pProcess => (m, pProcess)
    | none => (RDKPerf_InsertProcess m pID, pID)
  let this : PerfRecord :=
    { elementName := elementName, startTime := env.timeStamp, idThread := caller.tid }
  let (m, pTree) ← match ← PerfProcess.getTree m pProcess this.idThread with
    | some pTree => pure (m, some pTree)
    | none => PerfProcess.newTree m pProcess this.idThread env
  match pTree with
  | none => pure (m, this)
  | some pTree =>
    let (m, this, _) ← PerfTree.addNodeRecord m pTree this caller
    pure (m, this)

/-- `m_ThresholdInUS > 0 && deltaTime > (uint64_t)m_ThresholdInUS`. -/
def exceeded (this : PerfRecord) (deltaTime : UInt64) : Bool :=
  this.thresholdInUS > 0 ∧ deltaTime > this.thresholdInUS.toInt64.toUInt64

/-- `~PerfRecord()`. -/
def destruct (m : Mem) (this : PerfRecord) (env : Env) : Except Fault Mem := do
  let deltaTime := env.timeStamp - this.startTime
  match this.nodeInTree with
  | none => throw .nullPointer
  | some pNode =>
    let m ← PerfNode.incrementData m pNode deltaTime 0 0
    let m ← PerfNode.closeNode m pNode
    if this.exceeded deltaTime then
      let node ← m.node pNode
      let line := .threshold this.elementName this.thresholdInUS deltaTime node.stats
      PerfNode.reportData (m.print line) pNode 0 true
    else
      pure m

def setThreshold (this : PerfRecord) (nUS : Int32) : PerfRecord := { this with thresholdInUS := nUS }

end PerfRecord

/-! ## The in-process build -/

/-- The process `pID`, its process map, and the `RDKPerfInProc` objects that exist. -/
structure InProc where
  pID : pid_t
  mem : Mem
  records : Store PerfRecord

namespace InProc

def init (pID : pid_t) : InProc := ⟨pID, .init, .empty⟩

/-- `RDKPerfInProc(szName)` and `RDKPerfInProc(szName, nThresholdInUS)`. -/
def construct (s : InProc) (szName : CString) (nThresholdInUS : Option UInt32) (caller : Caller)
    (env : Env) : Except Fault InProc := do
  let (mem, record) ← PerfRecord.construct s.mem s.pID szName.bytes caller env
  let record := match nThresholdInUS with
    | none => record
    | some nUS => record.setThreshold nUS.toInt32
  pure { s with mem := mem, records := s.records.alloc record }

/-- `delete perf`. -/
def destruct (s : InProc) (hPerf : Handle) (env : Env) : Except Fault InProc := do
  match s.records.get hPerf with
  | none => throw .dangling
  | some record =>
    let mem ← record.destruct s.mem env
    pure { s with mem := mem, records := s.records.free hPerf }

def setThreshhold (s : InProc) (hPerf : Handle) (nThresholdInUS : UInt32) : Except Fault InProc :=
  match s.records.get hPerf with
  | none => throw .dangling
  | some _ =>
    pure { s with records := s.records.modify hPerf (·.setThreshold nThresholdInUS.toInt32) }

def RDKPerf_ReportProcess (m : Mem) (pID : pid_t) (env : Env) : Except Fault Mem :=
  match RDKPerf_FindProcess m pID with
  | none => pure m
  | some pProcess => do
    PerfProcess.showTrees m pProcess
    -- close threads that have no activity since the last report
    let (m, _) ← PerfProcess.closeInactiveThreads m pProcess
    PerfProcess.reportData m pProcess env

/-- `self` is `getpid()`. A process that is not in the map is not tested for. -/
def RDKPerf_ReportThread (m : Mem) (self : pid_t) (tID : pthread_t) : Except Fault Mem :=
  match RDKPerf_FindProcess m self with
  | none => throw .nullPointer
  | some pProcess => do
    match ← PerfProcess.getTree m pProcess tID with
    | none => pure m
    | some pTree => PerfTree.reportData m pTree 0

def RDKPerf_CloseThread (m : Mem) (self : pid_t) (tID : pthread_t) : Except Fault Mem :=
  match RDKPerf_FindProcess m self with
  | none => pure m
  | some pProcess => Prod.fst <$> PerfProcess.removeTree m pProcess tID

def RDKPerf_CloseProcess (m : Mem) (pID : pid_t) : Except Fault Mem := RDKPerf_RemoveProcess m pID

def onMem (s : InProc) (f : Mem → Except Fault Mem) : Except Fault InProc := do
  let mem ← f s.mem
  pure { s with mem := mem }

def step (s : InProc) : Op → Except Fault InProc
  | .start caller szName nThresholdInUS env => s.construct szName nThresholdInUS caller env
  | .stop _ hPerf env => s.destruct hPerf env
  | .setThreshold _ hPerf nThresholdInUS => s.setThreshhold hPerf nThresholdInUS
  | .reportProcess _ pID env => s.onMem (RDKPerf_ReportProcess · pID env)
  | .reportThread _ tID => s.onMem (RDKPerf_ReportThread · s.pID tID)
  | .closeThread _ tID => s.onMem (RDKPerf_CloseThread · s.pID tID)
  | .closeProcess _ pID => s.onMem (RDKPerf_CloseProcess · pID)

def run (pID : pid_t) (ops : List Op) : Except Fault InProc := ops.foldlM step (init pID)

end InProc

/-! ## The remote build -/

/-- The class keeps the caller's `const char*`, and reads through it again in `SetThreshhold` and in
    its destructor. Here it keeps the string: a caller leaves it alone while the object exists. -/
structure RDKPerfRemote where
  szName : CString
  nThresholdInUS : UInt32
  startTime : UInt64

/-- The process `pID` as a client: whether `s_pQueue` is set, the `RDKPerfRemote` objects that
    exist, and the messages handed to `mq_send` so far, oldest first. -/
structure Client where
  pID : pid_t
  queue : Bool
  objects : Store RDKPerfRemote
  sent : List PerfMessage

namespace Client

def init (pID : pid_t) : Client := ⟨pID, false, .empty, []⟩

/-- `if(s_pQueue != NULL) s_pQueue->SendMessage(…)`. -/
def sendMessage (s : Client) (caller : Caller) (type : MessageType) (szName : Option CString)
    (nTimeStamp : UInt64) (nThresholdInUS : Int32) : Except Fault Client :=
  if s.queue then do
    let msg ← PerfMsgQueue.sendMessage ⟨caller, s.pID⟩ type szName nTimeStamp nThresholdInUS
    pure { s with sent := s.sent ++ msg.toList }
  else
    pure s

/-- `RDKPerfRemote(szName)`, whose threshold is zero, and `RDKPerfRemote(szName, nThresholdInUS)`.
    The first object of a process opens the queue. -/
def construct (s : Client) (szName : CString) (nThresholdInUS : Option UInt32) (caller : Caller)
    (env : Env) : Except Fault Client :=
  let this : RDKPerfRemote :=
    { szName := szName, nThresholdInUS := nThresholdInUS.getD 0, startTime := env.timeStamp }
  sendMessage { s with queue := true, objects := s.objects.alloc this } caller .eEntry
    (some this.szName) this.startTime this.nThresholdInUS.toInt32

def destruct (s : Client) (hPerf : Handle) (caller : Caller) (env : Env) : Except Fault Client :=
  match s.objects.get hPerf with
  | none => throw .dangling
  | some this =>
    sendMessage { s with objects := s.objects.free hPerf } caller .eExit (some this.szName)
      (env.timeStamp - this.startTime) (-1)

def setThreshhold (s : Client) (hPerf : Handle) (nThresholdInUS : UInt32) (caller : Caller) :
    Except Fault Client :=
  match s.objects.get hPerf with
  | none => throw .dangling
  | some this =>
    let set (this : RDKPerfRemote) : RDKPerfRemote := { this with nThresholdInUS := nThresholdInUS }
    sendMessage { s with objects := s.objects.modify hPerf set } caller .eThreshold
      (some this.szName) 0 nThresholdInUS.toInt32

/-- The four control calls take an argument and send none of it. -/
def step (s : Client) : Op → Except Fault Client
  | .start caller szName nThresholdInUS env => s.construct szName nThresholdInUS caller env
  | .stop caller hPerf env => s.destruct hPerf caller env
  | .setThreshold caller hPerf nThresholdInUS => s.setThreshhold hPerf nThresholdInUS caller
  | .reportProcess caller _ _ => s.sendMessage caller .eReportProcess none 0 0
  | .reportThread caller _ => s.sendMessage caller .eReportThread none 0 0
  | .closeThread caller _ => s.sendMessage caller .eCloseThread none 0 0
  | .closeProcess caller _ => s.sendMessage caller .eCloseProcess none 0 0

def run (pID : pid_t) (ops : List Op) : Except Fault Client := ops.foldlM step (init pID)

end Client
end RdkPerf

import RdkPerf.Model.Api

/-!
# The in-process build with `PERF_SHOW_CPU` (`rdk_perf_record.cpp`)

There a record has a clock of its own, marked when it is made, and measures by it instead of
`TimeStamp()`: the wall clock, and what the process has used of the CPU meanwhile. Everything else
is the code of the plain build. What `ReportData` adds to a node's line are columns of figures that
are in the node, and they are not modelled.
-/

namespace RdkPerf

open Lib

/-- A `PerfRecord`, with its `m_clock`. -/
structure CpuRecord where
  record : PerfRecord
  clock : PerfClock
  /-- `m_startTime = m_clock.GetWallClock()`, and neither changes after that. -/
  startTime_eq : record.startTime = clock.getWallClock .microsecond

namespace CpuRecord

/-- `pTree->AddNode(this)` -/
def addTo (this : CpuRecord) (m : Mem) (pTree : TreePtr) (caller : Caller) :
    Except Fault (Mem × CpuRecord) := do
  let (m, added, _) ← PerfTree.addNodeRecord m pTree this.record caller
  pure (m, ⟨{ this.record with nodeInTree := added.nodeInTree }, this.clock, this.startTime_eq⟩)

/-- `PerfRecord(elementName)`, whose clock reads `own`. -/
def construct (m : Mem) (pID : pid_t) (elementName : Name) (caller : Caller) (env : Env)
    (own : Reading) : Except Fault (Mem × CpuRecord) := do
  let (m, pProcess) := match RDKPerf_FindProcess m pID with
    | some pProcess => (m, pProcess)
    | none => (RDKPerf_InsertProcess m pID, pID)
  let clock := ({} : PerfClock).now .marker own
  let record : PerfRecord :=
    { elementName := elementName
      startTime := clock.getWallClock .microsecond
      idThread := caller.tid }
  let this : CpuRecord := ⟨record, clock, rfl⟩
  let (m, pTree) ← match ← PerfProcess.getTree m pProcess record.idThread with
    | some pTree => pure (m, some pTree)
    | none => PerfProcess.newTree m pProcess record.idThread env
  match pTree with
  | none => pure (m, this)
  | some pTree => this.addTo m pTree caller

/-- `~PerfRecord()`. -/
def destruct (m : Mem) (this : CpuRecord) (own : Reading) : Except Fault Mem := do
  let clock := this.clock.now .elapsed own
  let deltaTime := clock.getWallClock .microsecond
  match this.record.nodeInTree with
  | none => throw .nullPointer
  | some pNode =>
    let m ← PerfNode.incrementData m pNode deltaTime (clock.getUserCPU .microsecond)
      (clock.getSystemCPU .microsecond)
    let m ← PerfNode.closeNode m pNode
    if this.record.exceeded deltaTime then
      let node ← m.node pNode
      let line := .threshold this.record.elementName this.record.thresholdInUS deltaTime node.stats
      PerfNode.reportData (m.print line) pNode 0 true
    else
      pure m

def setThreshold (this : CpuRecord) (nUS : Int32) : CpuRecord :=
  { this with record := this.record.setThreshold nUS }

end CpuRecord

/-- The process `pID`, its process map, and the `RDKPerfInProc` objects that exist. -/
structure CpuProc where
  pID : pid_t
  mem : Mem
  records : Store CpuRecord

namespace CpuProc

def init (pID : pid_t) : CpuProc := ⟨pID, .init, .empty⟩

def construct (s : CpuProc) (szName : CString) (nThresholdInUS : Option UInt32) (caller : Caller)
    (env : Env) (own : Reading) : Except Fault CpuProc := do
  let (mem, record) ← CpuRecord.construct s.mem s.pID szName.bytes caller env own
  let record := match nThresholdInUS with
    | none => record
    | some nUS => record.setThreshold nUS.toInt32
  pure { s with mem := mem, records := s.records.alloc record }

def destruct (s : CpuProc) (hPerf : Handle) (own : Reading) : Except Fault CpuProc := do
  match s.records.get hPerf with
  | none => throw .dangling
  | some record =>
    let mem ← record.destruct s.mem own
    pure { s with mem := mem, records := s.records.free hPerf }

def setThreshhold (s : CpuProc) (hPerf : Handle) (nThresholdInUS : UInt32) :
    Except Fault CpuProc :=
  match s.records.get hPerf with
  | none => throw .dangling
  | some _ =>
    pure { s with records := s.records.modify hPerf (·.setThreshold nThresholdInUS.toInt32) }

def onMem (s : CpuProc) (f : Mem → Except Fault Mem) : Except Fault CpuProc := do
  let mem ← f s.mem
  pure { s with mem := mem }

/-- A call, and what the clock of its record reads. -/
def step (s : CpuProc) (own : Reading) : Op → Except Fault CpuProc
  | .start caller szName nThresholdInUS env => s.construct szName nThresholdInUS caller env own
  | .stop _ hPerf _ => s.destruct hPerf own
  | .setThreshold _ hPerf nThresholdInUS => s.setThreshhold hPerf nThresholdInUS
  | .reportProcess _ pID env => s.onMem (InProc.RDKPerf_ReportProcess · pID env)
  | .reportThread _ tID => s.onMem (InProc.RDKPerf_ReportThread · s.pID tID)
  | .closeThread _ tID => s.onMem (InProc.RDKPerf_CloseThread · s.pID tID)
  | .closeProcess _ pID => s.onMem (InProc.RDKPerf_CloseProcess · pID)

def run (pID : pid_t) (ops : List (Op × Reading)) : Except Fault CpuProc :=
  ops.foldlM (fun s op => s.step op.2 op.1) (init pID)

end CpuProc
end RdkPerf

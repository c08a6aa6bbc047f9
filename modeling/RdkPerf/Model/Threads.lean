import RdkPerf.Lib.Monitor
import RdkPerf.Model.Api

/-!
# The calls of the in-process build, and their lock (`rdk_perf.cpp`, `rdk_perf_record.cpp`)

`InProc.step` takes a call as one step. Here a call is what its thread does: the functions it
calls, one action each, and `SCOPED_LOCK` wherever the source has it. The mutex is recursive, and
the calls do nest it: `RDKPerfStart` has the lock when `PerfRecord` takes it, and `PerfRecord` when
`RDKPerf_FindProcess` does.

The library writes to its log as it is loaded, before there is a second thread, so the mutex is
initialized (`_bMutexInit`) before any of these calls.
-/

namespace RdkPerf

open Lib

/-- What a thread of the process does. -/
abbrev Work := Code InProc Fault

namespace Work

variable {α : Type}

/-- A function of the process map and what is under it. -/
def onMem (f : Mem → Except Fault (α × Mem)) : Work α :=
  .atomic fun s => do
    let (a, mem) ← f s.mem
    pure (a, { s with mem := mem })

/-- One that has no result. -/
def update (f : Mem → Except Fault Mem) : Work Unit :=
  onMem fun m => do
    let m ← f m
    pure ((), m)

/-- One that changes nothing. -/
def look (f : Mem → Except Fault α) : Work α :=
  onMem fun m => do
    let a ← f m
    pure (a, m)

def getpid : Work pid_t := .atomic fun s => pure (s.pID, s)

def fail (e : Fault) : Work α := .atomic fun _ => throw e

/-! ## The process map -/

def RDKPerf_FindProcess (pID : pid_t) : Work (Option ProcPtr) :=
  .locked (look fun m => pure (RdkPerf.RDKPerf_FindProcess m pID))

def RDKPerf_InsertProcess (pID : pid_t) : Work Unit :=
  .locked (update fun m => pure (RdkPerf.RDKPerf_InsertProcess m pID))

def RDKPerf_RemoveProcess (pID : pid_t) : Work Unit :=
  .locked (update (RdkPerf.RDKPerf_RemoveProcess · pID))

/-! ## `PerfRecord` -/

/-- The process of the calling thread, made if there is none. -/
def ownProcess (pID : pid_t) : Work ProcPtr := do
  match ← RDKPerf_FindProcess pID with
  | some pProcess => pure pProcess
  | none => do
    RDKPerf_InsertProcess pID
    pure pID

def ownTree (pProcess : ProcPtr) (tID : pthread_t) (env : Env) : Work (Option TreePtr) := do
  match ← look (PerfProcess.getTree · pProcess tID) with
  | some pTree => pure (some pTree)
  | none => onMem fun m => Prod.swap <$> PerfProcess.newTree m pProcess tID env

/-- `this` gets its node, in the tree of its thread. -/
def addRecord (pProcess : ProcPtr) (this : PerfRecord) (caller : Caller) (env : Env) :
    Work PerfRecord := do
  match ← ownTree pProcess this.idThread env with
  | none => pure this
  | some pTree =>
    onMem fun m => do
      let (m, this, _) ← PerfTree.addNodeRecord m pTree this caller
      pure (this, m)

/-- `PerfRecord(elementName)`. -/
def constructRecord (elementName : Name) (caller : Caller) (env : Env) : Work PerfRecord := do
  let pID ← getpid
  Code.locked do
    let pProcess ← ownProcess pID
    let this : PerfRecord :=
      { elementName := elementName, startTime := env.timeStamp, idThread := caller.tid }
    addRecord pProcess this caller env

/-- `~PerfRecord()`. -/
def destructRecord (this : PerfRecord) (env : Env) : Work Unit :=
  .locked <|
    let deltaTime := env.timeStamp - this.startTime
    match this.nodeInTree with
    | none => fail .nullPointer
    | some pNode => do
      update (PerfNode.incrementData · pNode deltaTime 0 0)
      update (PerfNode.closeNode · pNode)
      if this.exceeded deltaTime then do
        let node ← look (·.node pNode)
        let line := .threshold this.elementName this.thresholdInUS deltaTime node.stats
        update fun m => PerfNode.reportData (m.print line) pNode 0 true
      else
        pure ()

/-! ## The objects -/

/-- The object stands where `new` found room for it. -/
def keep (record : PerfRecord) : Work Unit :=
  .atomic fun s => pure ((), { s with records := s.records.alloc record })

def recordOf (hPerf : Handle) : Work PerfRecord :=
  .atomic fun s =>
    match s.records.get hPerf with
    | none => throw .dangling
    | some record => pure (record, s)

def drop (hPerf : Handle) : Work Unit :=
  .atomic fun s => pure ((), { s with records := s.records.free hPerf })

/-! ## The calls -/

def RDKPerfStart (szName : CString) (caller : Caller) (env : Env) : Work Unit :=
  .locked do
    let record ← constructRecord szName.bytes caller env
    keep record

/-- `RDKPerf(szName, nThresholdInUS)`, which is not called through `RDKPerfStart`: the object is
    made, and gets its threshold, outside the lock. -/
def construct (szName : CString) (nThresholdInUS : UInt32) (caller : Caller) (env : Env) :
    Work Unit := do
  let record ← constructRecord szName.bytes caller env
  keep (record.setThreshold nThresholdInUS.toInt32)

def RDKPerfStop (hPerf : Handle) (env : Env) : Work Unit :=
  .locked do
    let record ← recordOf hPerf
    destructRecord record env
    drop hPerf

/-- It takes no lock. -/
def RDKPerfSetThreshold (hPerf : Handle) (nThresholdInUS : UInt32) : Work Unit :=
  .atomic fun s => do
    let s ← s.setThreshhold hPerf nThresholdInUS
    pure ((), s)

def RDKPerf_ReportProcess (pID : pid_t) (env : Env) : Work Unit :=
  .locked do
    match ← RDKPerf_FindProcess pID with
    | none => pure ()
    | some pProcess => do
      look (PerfProcess.showTrees · pProcess)
      -- close threads that have no activity since the last report
      update fun m => Prod.fst <$> PerfProcess.closeInactiveThreads m pProcess
      update (PerfProcess.reportData · pProcess env)

def RDKPerf_ReportThread (tID : pthread_t) : Work Unit :=
  .locked do
    let pID ← getpid
    match ← RDKPerf_FindProcess pID with
    | none => fail .nullPointer
    | some pProcess => do
      match ← look (PerfProcess.getTree · pProcess tID) with
      | none => pure ()
      | some pTree => update (PerfTree.reportData · pTree 0)

def RDKPerf_CloseThread (tID : pthread_t) : Work Unit :=
  .locked do
    let pID ← getpid
    match ← RDKPerf_FindProcess pID with
    | none => pure ()
    | some pProcess => update fun m => Prod.fst <$> PerfProcess.removeTree m pProcess tID

def RDKPerf_CloseProcess (pID : pid_t) : Work Unit := .locked (RDKPerf_RemoveProcess pID)

end Work

/-- What a call has to do. -/
def Op.work : Op → Work Unit
  | .start caller szName none env => Work.RDKPerfStart szName caller env
  | .start caller szName (some nThresholdInUS) env =>
    Work.construct szName nThresholdInUS caller env
  | .stop _ hPerf env => Work.RDKPerfStop hPerf env
  | .setThreshold _ hPerf nThresholdInUS => Work.RDKPerfSetThreshold hPerf nThresholdInUS
  | .reportProcess _ pID env => Work.RDKPerf_ReportProcess pID env
  | .reportThread _ tID => Work.RDKPerf_ReportThread tID
  | .closeThread _ tID => Work.RDKPerf_CloseThread tID
  | .closeProcess _ pID => Work.RDKPerf_CloseProcess pID

/-- The calls that have the lock from their first step to their last. -/
def Op.locks : Op → Bool
  | .start _ _ (some _) _ => false
  | .setThreshold _ _ _ => false
  | _ => true

/-- The threads of the process, and what they share. -/
abbrev Threads := Pool pthread_t Op InProc Fault

namespace Threads

def run (pID : pid_t) (actions : List (Pool.Action pthread_t Op)) : Option Threads :=
  Pool.run Op.work (InProc.init pID) actions

end Threads
end RdkPerf

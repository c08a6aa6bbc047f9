import RdkPerf.Model.Message

/-!
# The service (`perfservice.cpp`)

The handlers of the messages, on the process map of the service. A handler answers what the
source's `bool` says; a call that has no outcome at all is a `Fault`.
-/

namespace RdkPerf

open Lib

namespace Service

/-- `GetTree(pID, tID, szName, bCreate)`; `szName` is only logged. -/
def getTree (m : Mem) (pID : pid_t) (tID : pthread_t) (bCreate : Bool) (env : Env) :
    Except Fault (Mem × Option TreePtr) := do
  let (m, pProcess) := match RDKPerf_FindProcess m pID with
    | some pProcess => (m, some pProcess)
    | none => if bCreate then (RDKPerf_InsertProcess m pID, some pID) else (m, none)
  match pProcess with
  | none => pure (m, none)
  | some pProcess =>
    match ← PerfProcess.getTree m pProcess tID with
    | some pTree => pure (m, some pTree)
    | none => if bCreate then PerfProcess.newTree m pProcess tID env else pure (m, none)

/-- `pTree->GetStack()->top()`. -/
def top (m : Mem) (pTree : TreePtr) : Except Fault NodePtr := do
  let tree ← m.tree pTree
  match tree.activeNode with
  | [] => throw .emptyStack
  | pNode :: _ => pure pNode

def handleEntry (m : Mem) (msg : EntryMessage) (env : Env) : Except Fault (Mem × Bool) := do
  match ← getTree m msg.pID msg.tID true env with
  | (m, none) => pure (m, false)
  | (m, some pTree) =>
    let (m, pNode) ← PerfTree.addNodeEntry m pTree msg.szName msg.tID msg.szThreadName
    if msg.nThresholdInUS > 0 then
      pure (m.modifyNode pNode (·.setThreshold msg.nThresholdInUS), true)
    else
      pure (m, true)

def handleThreshold (m : Mem) (msg : ThresholdMessage) (env : Env) :
    Except Fault (Mem × Bool) := do
  match ← getTree m msg.pID msg.tID false env with
  | (m, none) => pure (m, false)
  | (m, some pTree) =>
    let pNode ← top m pTree
    if msg.nThresholdInUS > 0 then
      let _ ← m.node pNode
      pure (m.modifyNode pNode (·.setThreshold msg.nThresholdInUS), true)
    else
      pure (m, false)

/-- A name that runs past the message is read only when there is a tree to compare with. -/
def handleExit (m : Mem) (msg : ExitMessage) (env : Env) : Except Fault (Mem × Bool) := do
  match ← getTree m msg.pID msg.tID false env with
  | (m, none) => pure (m, false)
  | (m, some pTree) =>
    let pNode ← top m pTree
    let node ← m.node pNode
    match msg.szName with
    | none => throw .overread
    | some szName =>
      if node.elementName = szName then
        let m ← PerfNode.incrementData m pNode msg.nTimeStamp 0 0
        let m ← PerfNode.closeNode m pNode
        pure (m, true)
      else
        pure (m, false)

def handleReportThread (m : Mem) (msg : ThreadMessage) (env : Env) :
    Except Fault (Mem × Bool) := do
  match ← getTree m msg.pID msg.tID false env with
  | (m, none) => pure (m, false)
  | (m, some pTree) =>
    let m ← PerfTree.reportData m pTree 0
    pure (m, true)

def handleReportProcess (m : Mem) (msg : ProcessMessage) (env : Env) :
    Except Fault (Mem × Bool) :=
  match RDKPerf_FindProcess m msg.pID with
  | none => pure (m, false)
  | some pProcess => do
    PerfProcess.showTrees m pProcess
    -- close threads that have no activity since the last report
    let (m, _) ← PerfProcess.closeInactiveThreads m pProcess
    let m ← PerfProcess.reportData m pProcess env
    pure (m, true)

def handleCloseThread (m : Mem) (msg : ThreadMessage) : Except Fault (Mem × Bool) :=
  match RDKPerf_FindProcess m msg.pID with
  | none => pure (m, false)
  | some pProcess => PerfProcess.removeTree m pProcess msg.tID

def handleCloseProcess (m : Mem) (msg : ProcessMessage) : Except Fault (Mem × Bool) := do
  let m ← RDKPerf_RemoveProcess m msg.pID
  pure (m, true)

def handleMessage (m : Mem) (msg : PerfMessage) (env : Env) : Except Fault (Mem × Bool) :=
  match MessageType.ofCode msg.type with
  | some .eEntry => handleEntry m msg.entry env
  | some .eThreshold => handleThreshold m msg.threshold env
  | some .eExit => handleExit m msg.exit env
  | some .eReportThread => handleReportThread m msg.report_thread env
  | some .eReportProcess => handleReportProcess m msg.report_process env
  | some .eCloseThread => handleCloseThread m msg.close_thread
  | some .eCloseProcess => handleCloseProcess m msg.close_process
  | _ => pure (m, false)

/-! ## A run -/

/-- A message as the service meets it: its bytes, and the clocks at that moment. -/
structure Delivery where
  msg : PerfMessage
  env : Env := {}

/-- The map after the messages handled so far, and what `HandleMessage` answered to each. -/
structure State where
  mem : Mem
  answers : List (Delivery × Bool)

def State.init : State := ⟨.init, []⟩

def step (s : State) (d : Delivery) : Except Fault State := do
  let (mem, retVal) ← handleMessage s.mem d.msg d.env
  pure ⟨mem, s.answers ++ [(d, retVal)]⟩

def run (ds : List Delivery) : Except Fault State := ds.foldlM step .init

end Service
end RdkPerf

import RdkPerf.Model.Tree

/-!
# `PerfProcess` and the process map (`rdk_perf_process.cpp`)

The thread map of a process owns its trees, and the process map owns the processes. `this` is
the process id a process is registered under: a method called on a process that was removed
meanwhile fails as `dangling`.
-/

namespace RdkPerf

open Lib

namespace PerfProcess

/-- What `CloseInactiveThreads` does on an entry of the thread map. -/
def closeIfInactive (this : ProcPtr) (acc : Mem × Bool) (entry : pthread_t × TreePtr) :
    Except Fault (Mem × Bool) := do
  if ← PerfTree.isInactive acc.1 entry.2 then
    let m ← PerfTree.delete acc.1 entry.2
    let erase (p : PerfProcess) : PerfProcess :=
      { p with mapThreads := p.mapThreads.erase entry.1 }
    pure (m.modifyProcess this erase, true)
  else
    pure acc

/-- The iterator of the loop stands on each entry once: `erase(it)` returns the next one, and no
    other entry is erased meanwhile. -/
def closeInactiveThreads (m : Mem) (this : ProcPtr) : Except Fault (Mem × Bool) := do
  let proc ← m.process this
  proc.mapThreads.toList.foldlM (closeIfInactive this) (m, false)

def removeTree (m : Mem) (this : ProcPtr) (tID : pthread_t) : Except Fault (Mem × Bool) := do
  let proc ← m.process this
  match proc.mapThreads[tID]? with
  | none => pure (m, false)
  | some pTree =>
    let m ← PerfTree.delete m pTree
    pure (m.modifyProcess this fun p => { p with mapThreads := p.mapThreads.erase tID }, true)

/-- A miss logs the id of every tree there is. -/
def getTree (m : Mem) (this : ProcPtr) (tID : pthread_t) : Except Fault (Option TreePtr) := do
  let proc ← m.process this
  match proc.mapThreads[tID]? with
  | some pTree => pure (some pTree)
  | none =>
    proc.mapThreads.toList.forM fun entry => do
      let _ ← m.tree entry.2
    pure none

def newTree (m : Mem) (this : ProcPtr) (tID : pthread_t) (env : Env) :
    Except Fault (Mem × Option TreePtr) := do
  let proc ← m.process this
  let (m, pTree) ← match proc.mapThreads[tID]? with
    | none =>
      let pTree := m.trees.next
      let m := { m with trees := m.trees.alloc {} }
      let register (p : PerfProcess) : PerfProcess :=
        { p with mapThreads := p.mapThreads.insert tID pTree }
      pure (m.modifyProcess this register, some pTree)
    | some pTree =>
      let _ ← m.tree pTree
      pure (m, none)
  pure (m.modifyProcess this fun p => { p with clock := p.clock.now .marker env.marker }, pTree)

/-- `ShowTree`: the top of the stack is read, and its name. -/
def showTree (m : Mem) (pTree : TreePtr) : Except Fault Unit := do
  let tree ← m.tree pTree
  match tree.activeNode with
  | [] => throw .emptyStack
  | pTop :: _ =>
    let _ ← m.node pTop

def showTrees (m : Mem) (this : ProcPtr) : Except Fault Unit := do
  let proc ← m.process this
  proc.mapThreads.toList.forM fun entry => showTree m entry.2

def reportData (m : Mem) (this : ProcPtr) (env : Env) : Except Fault Mem := do
  let proc ← m.process this
  let m := m.print (.process proc.mapThreads.size proc.idProcess.toUInt32)
  if proc.mapThreads.isEmpty then
    pure m
  else
    let clock := proc.clock.now .elapsed env.elapsed
    let msIntervalTime := clock.getWallClock .millisecond
    let m := m.print (.cpu (clock.getUserCPU .millisecond) (clock.getSystemCPU .millisecond))
    let m := m.modifyProcess this fun p => { p with clock := clock.now .marker env.marker }
    -- `PerfTree::ReportData` takes 32 bits of the interval
    proc.mapThreads.toList.foldlM
      (fun m entry => PerfTree.reportData m entry.2 msIntervalTime.toUInt32) m

/-- `delete` of the trees, as the destructor does; the entry goes with the process map's. -/
def deleteTrees (m : Mem) (this : ProcPtr) : Except Fault Mem := do
  let proc ← m.process this
  proc.mapThreads.toList.foldlM (fun m entry => PerfTree.delete m entry.2) m

end PerfProcess

/-! ## The process map -/

def RDKPerf_FindProcess (m : Mem) (pID : pid_t) : Option ProcPtr :=
  if m.processMap.contains pID then some pID else none

/-- `new PerfProcess(pID)` and `RDKPerf_InsertProcess`: `std::map::insert` keeps an entry that is
    there already. -/
def RDKPerf_InsertProcess (m : Mem) (pID : pid_t) : Mem :=
  { m with processMap := m.processMap.insertIfNew pID { idProcess := pID } }

def RDKPerf_RemoveProcess (m : Mem) (pID : pid_t) : Except Fault Mem :=
  match RDKPerf_FindProcess m pID with
  | none => pure m
  | some pProcess => do
    let m ← PerfProcess.deleteTrees m pProcess
    pure { m with processMap := m.processMap.erase pID }

end RdkPerf

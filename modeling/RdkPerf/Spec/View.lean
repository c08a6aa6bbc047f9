import RdkPerf.Lib.Walk
import RdkPerf.Spec.CallTree

/-!
# Reading the trees out of the memory

`Mem.view m pID tID` is the call tree registered for a thread, read off the objects: follow the
process map, the thread map, the root and the child maps, and take the names on the stack. It is
what the results below are stated about. It computes, and looks at nothing but the memory.
-/

namespace RdkPerf

open Lib

/-- The child maps as labelled edges. -/
def childOf (m : Mem) (p : NodePtr) (name : Name) : Option NodePtr :=
  (m.nodes.get p).bind (·.childNodes[name]?)

namespace Mem

/-- The entry of the thread map. -/
def treePtr (m : Mem) (pID : pid_t) (tID : pthread_t) : Option TreePtr :=
  m.processMap[pID]?.bind (·.mapThreads[tID]?)

/-- The node at a path below `r`. -/
def nodeAt (m : Mem) (r : NodePtr) (π : Path) : Option PerfNode :=
  (walk (childOf m) r π).bind m.nodes.get

/-- The names on a stack above its bottom. -/
def openNames (m : Mem) (stack : List NodePtr) : Path :=
  stack.dropLast.map fun p => ((m.nodes.get p).map (·.elementName)).getD []

def viewTree (m : Mem) (t : TreePtr) : Option CallTree := do
  let tree ← m.trees.get t
  let r ← tree.rootNode
  some
    { idThread := tree.idThread
      threadName := tree.threadName
      node := fun π => (m.nodeAt r π).map (·.data)
      active := m.openNames tree.activeNode
      activityCount := tree.activityCount
      countAtLastReport := tree.countAtLastReport }

def view (m : Mem) (pID : pid_t) (tID : pthread_t) : Option CallTree :=
  (m.treePtr pID tID).bind m.viewTree

end Mem

section Lemmas

variable {m : Mem} {p : NodePtr} {t : TreePtr} {pID pID' : pid_t} {tID tID' : pthread_t}

@[simp] theorem childOf_modifyTree (f : PerfTree → PerfTree) :
    childOf (m.modifyTree t f) = childOf m := rfl

@[simp] theorem childOf_modifyProcess (f : PerfProcess → PerfProcess) :
    childOf (m.modifyProcess pID f) = childOf m := rfl

@[simp] theorem childOf_print (line : Printed) : childOf (m.print line) = childOf m := rfl

/-- An update that leaves the child map alone leaves every edge alone. -/
theorem childOf_modifyNode {f : PerfNode → PerfNode}
    (hf : ∀ n, (f n).childNodes = n.childNodes) : childOf (m.modifyNode p f) = childOf m := by
  funext q name
  unfold childOf
  rw [Mem.modifyNode_nodes, Store.get_modify]
  split
  · cases m.nodes.get q with
    | none => rfl
    | some n => exact congrArg (·[name]?) (hf n)
  · rfl

theorem childOf_congr {m' : Mem} (h : m'.nodes.get p = m.nodes.get p) (name : Name) :
    childOf m' p name = childOf m p name := by
  unfold childOf
  rw [h]

theorem Mem.treePtr_eq_some :
    m.treePtr pID tID = some t ↔
      ∃ proc, m.processMap[pID]? = some proc ∧ proc.mapThreads[tID]? = some t :=
  Option.bind_eq_some_iff

theorem Mem.treePtr_of_process {proc : PerfProcess} (h : m.processMap[pID]? = some proc) :
    m.treePtr pID tID = proc.mapThreads[tID]? := by
  unfold Mem.treePtr
  rw [h]
  rfl

theorem Mem.treePtr_congr {m' : Mem} (h : m'.processMap = m.processMap) :
    m'.treePtr pID tID = m.treePtr pID tID := by
  unfold Mem.treePtr
  rw [h]

/-- The thread map of a process that is modified shows in that process only. -/
theorem Mem.treePtr_modifyProcess (f : PerfProcess → PerfProcess) :
    (m.modifyProcess pID f).treePtr pID' tID =
      if pID' = pID then (m.processMap[pID]?).bind (fun proc => (f proc).mapThreads[tID]?)
      else m.treePtr pID' tID := by
  unfold Mem.treePtr
  rw [Mem.modifyProcess_processMap, Std.ExtTreeMap.getElem?_modify]
  by_cases h : pID' = pID
  · subst h
    rw [if_pos rfl]
    cases m.processMap[pID']? <;> simp
  · rw [if_neg h, if_neg (by simpa using fun h' => h h'.symm)]

end Lemmas
end RdkPerf

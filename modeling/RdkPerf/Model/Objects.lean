import RdkPerf.Lib.Fold
import RdkPerf.Lib.Store
import RdkPerf.Model.Clock

/-!
# The objects and the memory they live in

`PerfNode`, `PerfTree` and `PerfProcess` with the fields some modelled function reads, and the
memory `Mem` both builds work on: the live nodes, the live trees, the process map, and the
report lines logged so far.

Nodes and trees are referred to by pointer from several places (a child map, the active stack, a
record, `m_Tree`, a thread map), so each kind has a `Store` and a pointer is an address in it.
A `PerfProcess` is referred to by the process map only and is created and deleted together with
its entry; the entry's key stands for its address.

Left out, because nothing reads them back: `PerfNode::m_idThread` and `m_startTime`,
`PerfProcess::m_ProcessName` (log text only), and the averages, which are quotients of figures
kept here.
-/

namespace RdkPerf

open Lib

/-- `pid_t` and `pthread_t` of the LP64 targets. -/
abbrev pid_t := Int32
abbrev pthread_t := UInt64

/-- The bytes of a `std::string`. -/
abbrev Name := List UInt8

/-- A `const char*`: the bytes before the terminator. -/
structure CString where
  bytes : Name
  noNul : 0 ∉ bytes := by decide

/-- What `pthread_getname_np` can answer: at most 15 bytes and their terminator. -/
structure ThreadName extends CString where
  short : bytes.length < 16 := by decide

abbrev NodePtr := Nat
abbrev TreePtr := Nat
abbrev ProcPtr := pid_t

/-- Why a call has no defined outcome. -/
inductive Fault where
  /-- A member of `NULL` is used. -/
  | nullPointer
  /-- A deleted object is used. -/
  | dangling
  /-- `top()` of an empty `std::stack`. -/
  | emptyStack
  /-- `memcpy` writes past the end of its destination. What is behind it is overwritten, and what
      the code makes of that is not modelled. -/
  | overrun
  /-- A string is read past the end of the message it is in. -/
  | overread
  /-- The empty string is assigned to a `std::string` whose bytes were cleared: it needs no storage
      of its own, and its terminator is written through the null pointer the clearing left. -/
  | clearedString
  /-- A recursive walk is deeper than there are nodes: it does not return. -/
  | depth
deriving DecidableEq, Repr

def INITIAL_MIN_VALUE : UInt64 := 1000000000
def THREAD_NAMELEN : Nat := 16

/-- `TimingStats` (`rdk_perf_node.h`). -/
structure TimingStats where
  elementName : Name
  nTotalTime : UInt64 := 0
  nTotalMax : UInt64 := 0
  nTotalMin : UInt64 := 0
  nTotalCount : UInt64 := 0
  nIntervalTime : UInt64 := 0
  nIntervalMax : UInt64 := 0
  nIntervalMin : UInt64 := 0
  nIntervalCount : UInt64 := 0
  nLastDelta : UInt64 := 0
  nUserCPU : UInt64 := 0
  nSystemCPU : UInt64 := 0
  nIntervalUserCPU : UInt64 := 0
  nIntervalSystemCPU : UInt64 := 0
  nTotalUserCPU : UInt64 := 0
  nTotalSystemCPU : UInt64 := 0
deriving DecidableEq, Repr

structure PerfNode where
  elementName : Name
  stats : TimingStats
  /-- `m_Tree`: null in a root, the owning tree elsewhere. -/
  tree : Option TreePtr := none
  thresholdInUS : Int32 := -1
  childNodes : Std.ExtTreeMap Name NodePtr := ∅

structure PerfTree where
  idThread : pthread_t := 0
  rootNode : Option NodePtr := none
  /-- `m_ThreadName`, up to its terminator. -/
  threadName : Name := []
  activityCount : UInt64 := 0
  countAtLastReport : UInt64 := 0
  /-- `m_activeNode`, the top first. -/
  activeNode : List NodePtr := []
deriving DecidableEq, Repr

/-- One measured call: what `RDKPerfStart` hands out a handle to. -/
structure PerfRecord where
  elementName : Name
  startTime : UInt64
  idThread : pthread_t
  nodeInTree : Option NodePtr := none
  thresholdInUS : Int32 := -1
deriving DecidableEq, Repr

structure PerfProcess where
  idProcess : pid_t
  mapThreads : Std.ExtTreeMap pthread_t TreePtr := ∅
  clock : PerfClock := {}

/-- The report lines of the log, as the arguments of the `LOG` call that prints each; what else is
    logged (a tree made, a thread closed, a message not understood) is left out. A tree's line shows
    only the low half of the thread's id; `this` is the tree that prints it. -/
inductive Printed where
  /-- `Found %d threads in this process %X` -/
  | process (size : Nat) (idProcess : UInt32)
  /-- `CPU user: %llu ms … CPU system: %llu ms` -/
  | cpu (user system : UInt64)
  /-- `Printing report on %X thread named %s, Interval Elapsed wallClock: %lu ms` -/
  | tree (this : TreePtr) (idThread : UInt32) (threadName : Name) (msIntervalTime : UInt32)
  /-- `| %s (Count, Max, Min, Avg) Total … Interval …` -/
  | totals (nLevel : UInt32) (stats : TimingStats)
  /-- `| %s elapsed time %0.3lf` -/
  | delta (nLevel : UInt32) (elementName : Name) (nLastDelta : UInt64)
  /-- `%s Threshold %ld exceeded, elapsed time = … Avg time = …` -/
  | threshold (elementName : Name) (thresholdInUS : Int32) (deltaTime : UInt64)
      (stats : TimingStats)
deriving DecidableEq, Repr

structure Mem where
  nodes : Store PerfNode
  trees : Store PerfTree
  processMap : Std.ExtTreeMap pid_t PerfProcess
  /-- Report lines printed so far, oldest first. -/
  log : List Printed

namespace Mem

/-- After `RDKPerf_InitializeMap`. -/
def init : Mem := ⟨.empty, .empty, ∅, []⟩

/-! ## Using a pointer -/

def node (m : Mem) (p : NodePtr) : Except Fault PerfNode :=
  match m.nodes.get p with
  | some n => .ok n
  | none => .error .dangling

def tree (m : Mem) (t : TreePtr) : Except Fault PerfTree :=
  match m.trees.get t with
  | some tr => .ok tr
  | none => .error .dangling

def process (m : Mem) (pp : ProcPtr) : Except Fault PerfProcess :=
  match m.processMap[pp]? with
  | some proc => .ok proc
  | none => .error .dangling

def modifyNode (m : Mem) (p : NodePtr) (f : PerfNode → PerfNode) : Mem :=
  { m with nodes := m.nodes.modify p f }

def modifyTree (m : Mem) (t : TreePtr) (f : PerfTree → PerfTree) : Mem :=
  { m with trees := m.trees.modify t f }

def modifyProcess (m : Mem) (pp : ProcPtr) (f : PerfProcess → PerfProcess) : Mem :=
  { m with processMap := m.processMap.modify pp f }

def print (m : Mem) (line : Printed) : Mem := { m with log := m.log ++ [line] }

section Lemmas

variable (m : Mem) (p : NodePtr) (t : TreePtr) (pp : ProcPtr)

@[simp] theorem modifyNode_nodes (f : PerfNode → PerfNode) :
    (m.modifyNode p f).nodes = m.nodes.modify p f := rfl
@[simp] theorem modifyNode_trees (f : PerfNode → PerfNode) :
    (m.modifyNode p f).trees = m.trees := rfl
@[simp] theorem modifyNode_processMap (f : PerfNode → PerfNode) :
    (m.modifyNode p f).processMap = m.processMap := rfl
@[simp] theorem modifyTree_nodes (f : PerfTree → PerfTree) :
    (m.modifyTree t f).nodes = m.nodes := rfl
@[simp] theorem modifyTree_trees (f : PerfTree → PerfTree) :
    (m.modifyTree t f).trees = m.trees.modify t f := rfl
@[simp] theorem modifyTree_processMap (f : PerfTree → PerfTree) :
    (m.modifyTree t f).processMap = m.processMap := rfl
@[simp] theorem modifyProcess_nodes (f : PerfProcess → PerfProcess) :
    (m.modifyProcess pp f).nodes = m.nodes := rfl
@[simp] theorem modifyProcess_trees (f : PerfProcess → PerfProcess) :
    (m.modifyProcess pp f).trees = m.trees := rfl
@[simp] theorem modifyProcess_processMap (f : PerfProcess → PerfProcess) :
    (m.modifyProcess pp f).processMap = m.processMap.modify pp f := rfl
@[simp] theorem print_nodes (line : Printed) : (m.print line).nodes = m.nodes := rfl
@[simp] theorem print_trees (line : Printed) : (m.print line).trees = m.trees := rfl
@[simp] theorem print_processMap (line : Printed) :
    (m.print line).processMap = m.processMap := rfl
variable {m p t pp}

theorem node_eq_ok {n : PerfNode} : m.node p = .ok n ↔ m.nodes.get p = some n := by
  unfold node
  cases m.nodes.get p <;> simp

theorem tree_eq_ok {tr : PerfTree} : m.tree t = .ok tr ↔ m.trees.get t = some tr := by
  unfold tree
  cases m.trees.get t <;> simp

theorem process_eq_ok {proc : PerfProcess} :
    m.process pp = .ok proc ↔ m.processMap[pp]? = some proc := by
  unfold process
  cases m.processMap[pp]? <;> simp

end Lemmas
end Mem
end RdkPerf

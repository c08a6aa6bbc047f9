import RdkPerf.Lib.CBytes
import RdkPerf.Model.Objects

/-!
# `PerfNode` and `PerfTree` (`rdk_perf_node.cpp`, `rdk_perf_tree.cpp`)

The methods of a node and of a tree, as functions of the memory and of `this`. Every `->` of the
source is a read that fails on a null or deleted object, also where the value only goes into a
log line; the bytes of such a line are not modelled. The build is the one without
`PERF_SHOW_CPU`, where `PerfNode::ReportData` only hands its `msIntervalTime` on.

Two recursions follow the child maps: `ReportData` and the destructor. Neither has a bound in
the source, and none that the types show, so both take the number of calls they may nest:
one for each node ever created, and one more.
-/

namespace RdkPerf

open Lib

/-- Who calls: `pthread_self()` and its `pthread_getname_np`. -/
structure Caller where
  tid : pthread_t
  threadName : ThreadName

def rootName : Name := [114, 111, 111, 116, 95, 110, 111, 100, 101] -- "root_node"

namespace PerfNode

/-- `PerfNode()`: the special constructor of a root, which counts itself as one call. -/
def root : PerfNode where
  elementName := rootName
  stats :=
    { elementName := rootName
      nTotalMin := INITIAL_MIN_VALUE
      nIntervalMin := INITIAL_MIN_VALUE
      nTotalCount := 1
      nIntervalCount := 1 }

/-- What the other two constructors leave of a name. -/
def named (name : Name) : PerfNode where
  elementName := name
  stats :=
    { elementName := name
      nTotalMin := INITIAL_MIN_VALUE
      nIntervalMin := INITIAL_MIN_VALUE }

/-- Both clear `m_stats` with `memset`, the `std::string` in it too, before they assign the name to
    that: an empty one has no place to be written to. -/
def construct (name : Name) : Except Fault PerfNode :=
  if name = [] then throw .clearedString else pure (named name)

def ofRecord (pRecord : PerfRecord) : Except Fault PerfNode := construct pRecord.elementName
def ofEntry (szName : Name) : Except Fault PerfNode := construct szName

def setTree (n : PerfNode) (pTree : TreePtr) : PerfNode := { n with tree := some pTree }

def setThreshold (n : PerfNode) (nUS : Int32) : PerfNode := { n with thresholdInUS := nUS }

end PerfNode

namespace TimingStats

/-- The updates `IncrementData` makes. -/
def increment (s : TimingStats) (deltaTime userCPU systemCPU : UInt64) : TimingStats :=
  { s with
    nLastDelta := deltaTime
    nTotalTime := s.nTotalTime + deltaTime
    nTotalCount := s.nTotalCount + 1
    nTotalMin := if s.nTotalMin > deltaTime then deltaTime else s.nTotalMin
    nTotalMax := if s.nTotalMax < deltaTime then deltaTime else s.nTotalMax
    nIntervalTime := s.nIntervalTime + deltaTime
    nIntervalCount := s.nIntervalCount + 1
    nIntervalMin := if s.nIntervalMin > deltaTime then deltaTime else s.nIntervalMin
    nIntervalMax := if s.nIntervalMax < deltaTime then deltaTime else s.nIntervalMax
    nUserCPU := userCPU
    nSystemCPU := systemCPU
    nIntervalUserCPU := s.nIntervalUserCPU + userCPU
    nIntervalSystemCPU := s.nIntervalSystemCPU + systemCPU
    nTotalUserCPU := s.nTotalUserCPU + userCPU
    nTotalSystemCPU := s.nTotalSystemCPU + systemCPU }

/-- The updates `ResetInterval` makes. -/
def resetInterval (s : TimingStats) : TimingStats :=
  { s with
    nIntervalTime := 0
    nIntervalMax := 0
    nIntervalMin := INITIAL_MIN_VALUE
    nIntervalCount := 0
    nIntervalUserCPU := 0
    nIntervalSystemCPU := 0 }

end TimingStats

/-! ## `PerfTree::CloseActiveNode`, and the methods of a node -/

namespace PerfTree

def closeActiveNode (m : Mem) (this : TreePtr) (pTreeNode : NodePtr) : Except Fault Mem := do
  let tree ← m.tree this
  match tree.activeNode with
  | [] => throw .emptyStack
  | pTop :: rest =>
    if pTreeNode ≠ pTop then
      -- `Not closeing the active node(%s != %s)`: both names are read, and the stack stays
      let _ ← m.node pTop
      let _ ← m.node pTreeNode
      pure m
    else
      pure (m.modifyTree this fun tr => { tr with activeNode := rest })

end PerfTree

namespace PerfNode

/-- The body both overloads of `AddChild` share: a child of that name is re-used, and only where
    there is none does the constructor of the overload run. -/
def addChild (m : Mem) (this : NodePtr) (name : Name) (new : Except Fault PerfNode) :
    Except Fault (Mem × NodePtr) := do
  let n ← m.node this
  match n.childNodes[name]? with
  | some pNode => pure (m, pNode)
  | none =>
    let child ← new
    let pNode := m.nodes.next
    let m := { m with nodes := m.nodes.alloc child }
    let link (n : PerfNode) : PerfNode := { n with childNodes := n.childNodes.insert name pNode }
    pure (m.modifyNode this link, pNode)

/-- `AddChild(PerfRecord*)`: the record learns its node. -/
def addChildRecord (m : Mem) (this : NodePtr) (pRecord : PerfRecord) :
    Except Fault (Mem × PerfRecord × NodePtr) := do
  let (m, pNode) ← addChild m this pRecord.elementName (ofRecord pRecord)
  pure (m, { pRecord with nodeInTree := some pNode }, pNode)

/-- `AddChild(char*, pthread_t, uint64_t)`. -/
def addChildEntry (m : Mem) (this : NodePtr) (szName : Name) : Except Fault (Mem × NodePtr) :=
  addChild m this szName (ofEntry szName)

def closeNode (m : Mem) (this : NodePtr) : Except Fault Mem := do
  let n ← m.node this
  match n.tree with
  | none => pure m
  | some pTree => PerfTree.closeActiveNode m pTree this

def incrementData (m : Mem) (this : NodePtr) (deltaTime userCPU systemCPU : UInt64) :
    Except Fault Mem := do
  let _ ← m.node this
  pure (m.modifyNode this fun n => { n with stats := n.stats.increment deltaTime userCPU systemCPU })

def resetInterval (m : Mem) (this : NodePtr) : Mem :=
  m.modifyNode this fun n => { n with stats := n.stats.resetInterval }

/-- `ReportData`, nesting at most `fuel` calls. A line is what its `LOG` is given; the array it is
    built in is that of `Model.Line`, and that no line left it is said of the levels in the log. -/
def reportDataNested (bShowOnlyDelta : Bool) :
    (fuel : Nat) → Mem → (this : NodePtr) → (nLevel : UInt32) → Except Fault Mem
  | 0, _, _, _ => .error .depth
  | fuel + 1, m, this, nLevel => do
    let n ← m.node this
    let m := m.print <|
      if bShowOnlyDelta then .delta nLevel n.stats.elementName n.stats.nLastDelta
      else .totals nLevel n.stats
    -- the map is not written while it is walked, so its entries are those found now
    let m ← n.childNodes.toList.foldlM
      (fun m entry => reportDataNested bShowOnlyDelta fuel m entry.2 (nLevel + 1)) m
    pure (if bShowOnlyDelta then m else resetInterval m this)

def reportData (m : Mem) (this : NodePtr) (nLevel : UInt32) (bShowOnlyDelta : Bool) :
    Except Fault Mem :=
  reportDataNested bShowOnlyDelta (m.nodes.next + 1) m this nLevel

/-- `delete` of a node: the destructor, nesting at most `fuel` calls, and then its storage. -/
def deleteNested : (fuel : Nat) → Mem → (this : NodePtr) → Except Fault Mem
  | 0, _, _ => .error .depth
  | fuel + 1, m, this => do
    let n ← m.node this
    let m ← n.childNodes.toList.foldlM (fun m entry => deleteNested fuel m entry.2) m
    pure { m with nodes := m.nodes.free this }

def delete (m : Mem) (this : NodePtr) : Except Fault Mem :=
  deleteNested (m.nodes.next + 1) m this

end PerfNode

/-! ## The other methods of a tree -/

namespace PerfTree

/-- `m_activeNode.top()`, or a new root. `name` is how an overload gives a tree that has no
    node yet its thread's id and name. -/
def topOrRoot (m : Mem) (this : TreePtr) (name : PerfTree → Except Fault PerfTree) :
    Except Fault (Mem × NodePtr) := do
  let tree ← m.tree this
  match tree.activeNode with
  | pTop :: _ => pure (m, pTop)
  | [] =>
    let pRoot := m.nodes.next
    let tree ← name { tree with rootNode := some pRoot, activeNode := [pRoot] }
    let m := { m with nodes := m.nodes.alloc .root }
    pure (m.modifyTree this fun _ => tree, pRoot)

/-- The last lines of both overloads of `AddNode`. -/
def pushNode (m : Mem) (this : TreePtr) (pNode : NodePtr) : Mem :=
  let push (tr : PerfTree) : PerfTree :=
    { tr with activeNode := pNode :: tr.activeNode, activityCount := tr.activityCount + 1 }
  (m.modifyTree this push).modifyNode pNode (·.setTree this)

/-- A new tree is named after the calling thread. -/
def nameFromCaller (caller : Caller) (tree : PerfTree) : Except Fault PerfTree :=
  pure { tree with idThread := caller.tid, threadName := caller.threadName.bytes }

/-- `AddNode(PerfRecord*)`. -/
def addNodeRecord (m : Mem) (this : TreePtr) (pRecord : PerfRecord) (caller : Caller) :
    Except Fault (Mem × PerfRecord × NodePtr) := do
  let (m, pTop) ← topOrRoot m this (nameFromCaller caller)
  let (m, pRecord, pNode) ← PerfNode.addChildRecord m pTop pRecord
  pure (pushNode m this pNode, pRecord, pNode)

/-- `memcpy(m_ThreadName, szThreadName, strlen(szThreadName))`: unbounded, and without the
    terminator. What was there before shows beyond the copied bytes. From 17 bytes on the counters
    behind the array are overwritten, and from 33 on the stack behind those. -/
def copyThreadName (tree : PerfTree) (szThreadName : Name) : Except Fault PerfTree :=
  if szThreadName.length ≤ THREAD_NAMELEN then
    pure { tree with threadName := szThreadName ++ tree.threadName.drop szThreadName.length }
  else
    throw .overrun

/-- A new tree takes the thread's id and name from the message. A string that is read past the
    message it is in is `none`. -/
def nameFromEntry (tID : pthread_t) (szThreadName : Option Name) (tree : PerfTree) :
    Except Fault PerfTree :=
  match szThreadName with
  | none => throw .overread
  | some szThreadName => copyThreadName { tree with idThread := tID } szThreadName

/-- `AddNode(char*, pthread_t, char*, uint64_t)`. -/
def addNodeEntry (m : Mem) (this : TreePtr) (szName : Option Name) (tID : pthread_t)
    (szThreadName : Option Name) : Except Fault (Mem × NodePtr) := do
  let (m, pTop) ← topOrRoot m this (nameFromEntry tID szThreadName)
  match szName with
  | none => throw .overread
  | some szName =>
    let (m, pNode) ← PerfNode.addChildEntry m pTop szName
    pure (pushNode m this pNode, pNode)

def isInactive (m : Mem) (this : TreePtr) : Except Fault Bool := do
  let tree ← m.tree this
  if tree.activityCount = tree.countAtLastReport then
    match tree.activeNode with
    | [] => throw .emptyStack
    | pTop :: _ => pure (some pTop = tree.rootNode)
  else
    pure false

/-- `m_ThreadName` as `%s` shows it. Sixteen bytes leave no room for a terminator, and the counters
    behind the array are read on, up to the first zero byte. -/
def shownThreadName (threadName : Name) (activityCount countAtLastReport : UInt64) : Name :=
  if threadName.length < THREAD_NAMELEN then threadName
  else threadName ++
    (toLE 8 activityCount.toNat ++ toLE 8 countAtLastReport.toNat).takeWhile (· ≠ 0)

def shownName (tree : PerfTree) : Name :=
  shownThreadName tree.threadName tree.activityCount tree.countAtLastReport

def reportData (m : Mem) (this : TreePtr) (msIntervalTime : UInt32) : Except Fault Mem := do
  let tree ← m.tree this
  let m := m.print (.tree this tree.idThread.toUInt32 tree.shownName msIntervalTime)
  match tree.rootNode with
  | none => throw .nullPointer
  | some pRoot =>
    let m ← PerfNode.reportData m pRoot 0 false
    pure (m.modifyTree this fun tr => { tr with countAtLastReport := tr.activityCount })

/-- `delete` of a tree; `delete m_rootNode` of a null pointer does nothing. -/
def delete (m : Mem) (this : TreePtr) : Except Fault Mem := do
  let tree ← m.tree this
  let m ← match tree.rootNode with
    | none => pure m
    | some pRoot => PerfNode.delete m pRoot
  pure { m with trees := m.trees.free this }

end PerfTree
end RdkPerf

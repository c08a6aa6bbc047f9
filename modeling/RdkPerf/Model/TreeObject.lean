import RdkPerf.Lib.Spans
import RdkPerf.Model.Service

/-!
# What an entry message touches (`perfservice.cpp`, `rdk_perf_tree.cpp`, `rdk_perf_tree.h`)

`HandleEntry` hands `AddNode` pointers into the message, and `AddNode` copies through a pointer
into the tree. Neither says how long what it points to is, so here both objects are the bytes they
are: the message as it was received, and a `PerfTree` laid out by the members of its class.
-/

namespace RdkPerf

open Lib

namespace Layout

def pointer : CType := ⟨8, 8⟩

/-- `std::stack<PerfNode*>`, a `std::deque` inside. -/
def stack : CType := ⟨80, 8⟩

def perfTree : List CType :=
  [pthread_t, pointer, char.array THREAD_NAMELEN, uint64_t, uint64_t, stack]

/-- Where `m_ThreadName` is. -/
def threadNameAt : Nat := offsetOf perfTree 2

end Layout

def PERF_TREE_SIZE : Nat := (CType.struct Layout.perfTree).size

abbrev TreeObject := Buf PERF_TREE_SIZE

namespace TreeObject

variable (object : TreeObject)

/-- `m_ThreadName`, the array. -/
def m_ThreadName : List UInt8 := object.slice Layout.threadNameAt THREAD_NAMELEN

/-- `m_ThreadName`, up to its terminator; all of it without one. -/
def threadName : Name := object.m_ThreadName.takeWhile (· ≠ 0)

def activityCount : UInt64 := object.fetch .u64 (offsetOf Layout.perfTree 3)

/-- The object of a tree as the model has it. A tree that is not made yet will be what its
    constructor leaves: `memset(m_ThreadName, 0, THREAD_NAMELEN)`. -/
def IsOf : Option PerfTree → Prop
  | none => object.m_ThreadName = List.replicate THREAD_NAMELEN 0
  | some tree => object.threadName = tree.threadName

end TreeObject

/-- The bytes of the message read through each name, those of the object written through
    `m_ThreadName`, those written through a null pointer, and the object before and after. -/
structure Touched where
  szName : List Span
  szThreadName : List Span
  written : List Span
  writtenNull : List Span
  before : TreeObject
  after : TreeObject

namespace PerfMessage

open Layout

variable (msg : PerfMessage)

/-- `std::string(szName)`, and `%s` in a `LOG`. -/
def nameSpan : Span := msg.stringSpan (dataAt Layout.entry 2)

/-- What `std::string(szName)` is. -/
def nameBytes : Name := msg.stringBytes (dataAt Layout.entry 2)

/-- `strlen(szThreadName)`, and `%s` in a `LOG`. -/
def threadNameSpan : Span := msg.stringSpan (dataAt Layout.entry 3)

/-- What `memcpy` copies of `szThreadName`: `strlen` bytes. -/
def threadNameBytes : List UInt8 := msg.stringBytes (dataAt Layout.entry 3)

end PerfMessage

/-- The copy in `AddNode`: `memcpy(m_ThreadName, szThreadName, strlen(szThreadName))`. -/
def TreeObject.copyThreadName (object : TreeObject) (msg : PerfMessage) : TreeObject :=
  object.write Layout.threadNameAt msg.threadNameBytes

/-- `PerfNode(szName, tID, nStartTime)` clears `m_stats`, and the pointer of the string in it, before
    it copies the name to that string: a name is given new storage, and the empty one only its
    terminator, where the cleared pointer points. -/
def PerfNode.constructTouches (szName : Name) : List Span := if szName = [] then [⟨0, 1⟩] else []

/-- `AddNode(szName, tID, szThreadName, nStartTime)`: only a tree without a node is named, and only a
    child that is not there is constructed. -/
def PerfTree.addNodeTouches (bNewTree bNewChild : Bool) (object : TreeObject) (msg : PerfMessage) :
    Touched :=
  let writtenNull := if bNewChild then PerfNode.constructTouches msg.nameBytes else []
  if bNewTree then
    { szName := [msg.nameSpan, msg.nameSpan]
      szThreadName := [msg.threadNameSpan,
        ⟨Layout.dataAt Layout.entry 3, msg.threadNameBytes.length⟩, msg.threadNameSpan]
      written := [⟨Layout.threadNameAt, msg.threadNameBytes.length⟩]
      writtenNull := writtenNull
      before := object
      after := object.copyThreadName msg }
  else
    { szName := [msg.nameSpan]
      szThreadName := []
      written := []
      writtenNull := writtenNull
      before := object
      after := object }

namespace Service

/-- The tree an entry message goes to, when there is one. -/
def treeOf (m : Mem) (pID : pid_t) (tID : pthread_t) : Option PerfTree :=
  ((m.processMap[pID]?).bind (·.mapThreads[tID]?)).bind m.trees.get

/-- The node `AddChild` finds under the name. -/
def childOfTop (m : Mem) (tree : PerfTree) (szName : Name) : Option NodePtr :=
  tree.activeNode.head?.bind fun pTop => (m.nodes.get pTop).bind (·.childNodes[szName]?)

/-- `HandleEntry`: the names are logged, and handed to `AddNode`. -/
def handleEntryTouches (m : Mem) (object : TreeObject) (msg : PerfMessage) : Touched :=
  let tree := treeOf m msg.entry.pID msg.entry.tID
  let bNewTree := tree.all (·.activeNode.isEmpty)
  let bNewChild := (tree.bind (childOfTop m · msg.nameBytes)).isNone
  let touched := PerfTree.addNodeTouches bNewTree bNewChild object msg
  { touched with szName := msg.nameSpan :: touched.szName }

end Service
end RdkPerf

import RdkPerf.Model.Objects

/-!
# The shared queue and its reference count (`rdk_perf_msgqueue.cpp`)

`GetQueue` makes the one queue of a process on demand and counts whoever asks for it; `Release`
deletes it with the last reference. The queue objects live in a `Store`, so that a pointer to a
deleted one is a pointer to nothing. Every call is one step, as it runs under the lock.

Left out are the name, the descriptor and the attributes, which none of the three looks at.
-/

namespace RdkPerf

open Lib

abbrev QueuePtr := Nat

structure PerfMsgQueue where
  bService : Bool
  refCount : UInt32 := 0
deriving DecidableEq, Repr

/-- The queue objects, and `s_PerfQueue`. -/
structure Queues where
  objects : Store PerfMsgQueue
  s_PerfQueue : Option QueuePtr

namespace Queues

def init : Queues := ⟨.empty, none⟩

def queue (s : Queues) (this : QueuePtr) : Except Fault PerfMsgQueue :=
  match s.objects.get this with
  | some queue => .ok queue
  | none => .error .dangling

def setRefCount (s : Queues) (this : QueuePtr) (n : UInt32) : Queues :=
  { s with objects := s.objects.modify this fun queue => { queue with refCount := n } }

def AddRef (s : Queues) (this : QueuePtr) : Except Fault (Queues × UInt32) := do
  let queue ← s.queue this
  let refCount := queue.refCount + 1
  pure (s.setRefCount this refCount, refCount)

def Release (s : Queues) (this : QueuePtr) : Except Fault (Queues × UInt32) := do
  let queue ← s.queue this
  let retVal := queue.refCount - 1
  let s := s.setRefCount this retVal
  if retVal = 0 then
    -- `delete this`
    pure ({ s with objects := s.objects.free this }, retVal)
  else
    pure (s, retVal)

def GetQueue (s : Queues) (bService : Bool) : Except Fault (Queues × QueuePtr) := do
  let (s, this) := match s.s_PerfQueue with
    | some this => (s, this)
    | none =>
      let this := s.objects.next
      ({ objects := s.objects.alloc { bService := bService }, s_PerfQueue := some this }, this)
  let (s, _) ← s.AddRef this
  pure (s, this)

/-- A call, with the object it is made on. -/
inductive Call where
  | GetQueue (bService : Bool)
  | AddRef (this : QueuePtr)
  | Release (this : QueuePtr)
deriving DecidableEq, Repr

end Queues
end RdkPerf

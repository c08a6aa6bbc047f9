import Mathlib

/-!
# The inline metrics of a block (`rdk_perf.h`)

`FUNC_METRICS_START(depth)` and `FUNC_METRICS_END()` put a block between them. Its elapsed times are
stored in a static array, and when that is full the next execution prints their average instead of
storing its own. The array has `depth` elements; what the index is compared with, and the sum
divided by, is a copy of `depth` in 16 bits.

`depth` is a constant of each place the macros are used at, which has static variables of its own.
-/

namespace RdkPerf

/-- The static variables of a block. -/
structure FuncMetrics (depth : Nat) where
  x_nIdx : UInt16 := 0
  x_data : Vector UInt64 depth := Vector.replicate depth 0
deriving DecidableEq, Repr

/-- What `PerfRecord::TimeStamp` answers at the start of the block and at its end. -/
structure Execution where
  nStartTime : UInt64
  timeStamp : UInt64
deriving DecidableEq, Repr

def Execution.elapsed (e : Execution) : UInt64 := e.timeStamp - e.nStartTime

/-- What an execution does: it stores a time, or it prints `sum / (x_depth * 1000.0)`. -/
inductive Executed where
  | stored (index : Nat) (elapsed : UInt64)
  | printed (sum : UInt64) (x_depth : UInt16)
deriving DecidableEq, Repr

namespace FuncMetrics

variable {depth : Nat}

/-- `while(x_nIdx != 0) sum += x_data[--x_nIdx]`, in less than `fuel` rounds: the index and the sum
    after it. An element outside of the array has no value. -/
def sumDown (x_data : Vector UInt64 depth) :
    (fuel : Nat) → (x_nIdx : UInt16) → (sum : UInt64) → Option (UInt16 × UInt64)
  | 0, _, _ => none
  | fuel + 1, x_nIdx, sum =>
    if x_nIdx ≠ 0 then do
      let x_nIdx := x_nIdx - 1
      let x ← x_data[x_nIdx.toNat]?
      sumDown x_data fuel x_nIdx (sum + x)
    else
      some (x_nIdx, sum)

/-- One execution of the block: no outcome if it leaves the array. -/
def execute (m : FuncMetrics depth) (e : Execution) : Option (FuncMetrics depth × Executed) :=
  let x_depth := UInt16.ofNat depth
  if m.x_nIdx < x_depth then
    -- `x_data[x_nIdx++] = PerfRecord::TimeStamp() - nStartTime`
    if h : m.x_nIdx.toNat < depth then
      some ({ x_nIdx := m.x_nIdx + 1, x_data := m.x_data.set m.x_nIdx.toNat e.elapsed h },
        .stored m.x_nIdx.toNat e.elapsed)
    else none
  else do
    let (x_nIdx, sum) ← sumDown m.x_data (m.x_nIdx.toNat + 1) m.x_nIdx 0
    some ({ m with x_nIdx := x_nIdx }, .printed sum x_depth)

/-- The executions of a block by one thread: the variables after them, and what each did. -/
def run (depth : Nat) (es : List Execution) : Option (FuncMetrics depth × List Executed) :=
  es.foldlM (fun s e => do
    let (m, did) ← s.1.execute e
    some (m, s.2 ++ [did])) ({}, [])

end FuncMetrics
end RdkPerf

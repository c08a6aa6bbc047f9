import Mathlib

/-!
# `PerfClock` — wall clock and CPU times (`rdk_perf_clock.cpp`)

A `PerfClock` holds three `uint64_t` figures in microseconds. `now` either overwrites them with a
reading (`Marker`) or replaces them by their difference to one (`Elapsed`). What the kernel
answers is an input of the model: a `Reading` is one successful `gettimeofday` together with one
successful `getrusage`.
-/

namespace RdkPerf

/-- What `gettimeofday` and `getrusage` answer, each `time_t` already converted to the
    `uint64_t` that `ConvertToUS` computes with. -/
structure Reading where
  tvSec : UInt64 := 0
  tvUsec : UInt64 := 0
  utimeSec : UInt64 := 0
  utimeUsec : UInt64 := 0
  stimeSec : UInt64 := 0
  stimeUsec : UInt64 := 0
deriving DecidableEq, Repr

/-- `m_timeStamp`. -/
structure PerfClock where
  wallClock : UInt64 := 0
  userCPU : UInt64 := 0
  systemCPU : UInt64 := 0
deriving DecidableEq, Repr

namespace PerfClock

inductive Operation where
  | elapsed
  | marker
deriving DecidableEq, Repr

/-- `TimeUnit`: the divisor of a getter. -/
inductive TimeUnit where
  | microsecond
  | millisecond
deriving DecidableEq, Repr

def TimeUnit.divisor : TimeUnit → UInt64
  | .microsecond => 1
  | .millisecond => 1000

def convertToUS (sec usec : UInt64) : UInt64 := sec * 1000000 + usec

def setWallClock (c : PerfClock) (r : Reading) : PerfClock :=
  { c with wallClock := convertToUS r.tvSec r.tvUsec }

/-- `SetCPU`: a system time of exactly zero is taken for a failure, and then the user time is
    dropped with it. -/
def setCPU (c : PerfClock) (r : Reading) : PerfClock :=
  if r.stimeSec = 0 ∧ r.stimeUsec = 0 then
    { c with systemCPU := 0, userCPU := 0 }
  else
    { c with
      systemCPU := convertToUS r.stimeSec r.stimeUsec
      userCPU := convertToUS r.utimeSec r.utimeUsec }

def getWallClock (c : PerfClock) (units : TimeUnit) : UInt64 := c.wallClock / units.divisor
def getUserCPU (c : PerfClock) (units : TimeUnit) : UInt64 := c.userCPU / units.divisor
def getSystemCPU (c : PerfClock) (units : TimeUnit) : UInt64 := c.systemCPU / units.divisor

/-- `PerfClock::Now(pClock, operation)` at the reading `r`. -/
def now (c : PerfClock) (operation : Operation) (r : Reading) : PerfClock :=
  match operation with
  | .marker => (c.setWallClock r).setCPU r
  | .elapsed =>
    let elapsed := (({} : PerfClock).setWallClock r).setCPU r
    { wallClock := elapsed.getWallClock .microsecond - c.getWallClock .microsecond
      userCPU := elapsed.getUserCPU .microsecond - c.getUserCPU .microsecond
      systemCPU := elapsed.getSystemCPU .microsecond - c.getSystemCPU .microsecond }

end PerfClock

/-- What one call reads from the clocks: `TimeStamp()`, and the readings `PerfClock::Now` makes
    as `Elapsed` and as `Marker`, in the calls that make them. -/
structure Env where
  timeStamp : UInt64 := 0
  elapsed : Reading := {}
  marker : Reading := {}
deriving DecidableEq, Repr

end RdkPerf

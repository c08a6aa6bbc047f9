import RdkPerf.Lib.CBytes
import RdkPerf.Model.Process

/-!
# `PerfMessage` and `SendMessage` (`rdk_perf_msgqueue.h`, `rdk_perf_msgqueue.cpp`)

A message is the bytes `mq_send` is given. `SendMessage` fills them through some members of the
union `MessageData` and a handler of the service reads them back through others, so the members'
offsets are computed from the declarations in the header, and nothing else says which bytes a
member is.
-/

namespace RdkPerf

open Lib

def MAX_NAME_LEN : Nat := 128

inductive MessageType where
  | eNoMessage
  | eEntry
  | eExit
  | eThreshold
  | eReportThread
  | eReportProcess
  | eCloseThread
  | eCloseProcess
  | eExitQueue
  | eMaxType
deriving DecidableEq, Repr

namespace MessageType

def code : MessageType → Int32
  | eNoMessage => -1
  | eEntry => 1
  | eExit => 2
  | eThreshold => 3
  | eReportThread => 4
  | eReportProcess => 5
  | eCloseThread => 6
  | eCloseProcess => 7
  | eExitQueue => 9998
  | eMaxType => 9999

/-- The enumerator a received code is, if it is one. -/
def ofCode (c : Int32) : Option MessageType :=
  [eNoMessage, eEntry, eExit, eThreshold, eReportThread, eReportProcess, eCloseThread,
    eCloseProcess, eExitQueue, eMaxType].find? fun type => type.code = c

theorem ofCode_code (type : MessageType) : ofCode type.code = some type := by
  cases type <;> rfl

end MessageType

/-! ## The layout -/

namespace Layout

def pid_t : CType := ⟨4, 4⟩
def pthread_t : CType := ⟨8, 8⟩
def uint64_t : CType := ⟨8, 8⟩
def int32_t : CType := ⟨4, 4⟩
def messageType : CType := ⟨4, 4⟩
def char : CType := ⟨1, 1⟩
def szName : CType := char.array MAX_NAME_LEN

def entry : List CType := [pid_t, pthread_t, szName, szName, uint64_t, int32_t]
def exit : List CType := [pid_t, pthread_t, szName, uint64_t]
def threshold : List CType := [pid_t, pthread_t, szName, int32_t]
def reportThread : List CType := [pid_t, pthread_t]
def reportProcess : List CType := [pid_t]
def closeThread : List CType := [pid_t, pthread_t]
def closeProcess : List CType := [pid_t]

def messageData : CType :=
  .union <| [entry, exit, threshold, reportThread, reportProcess, closeThread, closeProcess].map
    CType.struct

def perfMessage : List CType := [messageType, messageData]

/-- Where member `i` of a struct of the union is in the message. -/
def dataAt (struct : List CType) (i : Nat) : Nat := offsetOf perfMessage 1 + offsetOf struct i

end Layout

def PERF_MSG_SIZE : Nat := (CType.struct Layout.perfMessage).size

abbrev PerfMessage := Buf PERF_MSG_SIZE

/-! ## The members of the union, as a handler reads them -/

/-- `szName` and `szThreadName` as C strings: `none` when the string runs past the message. -/
structure EntryMessage where
  pID : pid_t
  tID : pthread_t
  szName : Option Name
  szThreadName : Option Name
  nTimeStamp : UInt64
  nThresholdInUS : Int32
deriving DecidableEq, Repr

structure ExitMessage where
  pID : pid_t
  tID : pthread_t
  szName : Option Name
  nTimeStamp : UInt64
deriving DecidableEq, Repr

structure ThresholdMessage where
  pID : pid_t
  tID : pthread_t
  szName : Option Name
  nThresholdInUS : Int32
deriving DecidableEq, Repr

/-- `ReportThread` and `CloseThread`. -/
structure ThreadMessage where
  pID : pid_t
  tID : pthread_t
deriving DecidableEq, Repr

/-- `ReportProcess` and `CloseProcess`. -/
structure ProcessMessage where
  pID : pid_t
deriving DecidableEq, Repr

namespace PerfMessage

open Layout

variable (msg : PerfMessage)

def type : Int32 := msg.fetch .i32 (offsetOf perfMessage 0)

def entry : EntryMessage where
  pID := msg.fetch .i32 (dataAt Layout.entry 0)
  tID := msg.fetch .u64 (dataAt Layout.entry 1)
  szName := msg.cstr (dataAt Layout.entry 2)
  szThreadName := msg.cstr (dataAt Layout.entry 3)
  nTimeStamp := msg.fetch .u64 (dataAt Layout.entry 4)
  nThresholdInUS := msg.fetch .i32 (dataAt Layout.entry 5)

def exit : ExitMessage where
  pID := msg.fetch .i32 (dataAt Layout.exit 0)
  tID := msg.fetch .u64 (dataAt Layout.exit 1)
  szName := msg.cstr (dataAt Layout.exit 2)
  nTimeStamp := msg.fetch .u64 (dataAt Layout.exit 3)

def threshold : ThresholdMessage where
  pID := msg.fetch .i32 (dataAt Layout.threshold 0)
  tID := msg.fetch .u64 (dataAt Layout.threshold 1)
  szName := msg.cstr (dataAt Layout.threshold 2)
  nThresholdInUS := msg.fetch .i32 (dataAt Layout.threshold 3)

def report_thread : ThreadMessage where
  pID := msg.fetch .i32 (dataAt Layout.reportThread 0)
  tID := msg.fetch .u64 (dataAt Layout.reportThread 1)

def report_process : ProcessMessage where
  pID := msg.fetch .i32 (dataAt Layout.reportProcess 0)

def close_thread : ThreadMessage where
  pID := msg.fetch .i32 (dataAt Layout.closeThread 0)
  tID := msg.fetch .u64 (dataAt Layout.closeThread 1)

def close_process : ProcessMessage where
  pID := msg.fetch .i32 (dataAt Layout.closeProcess 0)

end PerfMessage

/-! ## `PerfMsgQueue::SendMessage` -/

/-- What `getpid()`, `pthread_self()` and `pthread_getname_np` answer the sender. -/
structure Sender extends Caller where
  pID : pid_t

/-- The bytes `memcpy` takes of a name: all, or the first `MAX_NAME_LEN - 1`. -/
def cutName (szName : Name) : Name := szName.take (MAX_NAME_LEN - 1)

theorem cutName_eq_nil {szName : Name} : cutName szName = [] ↔ szName = [] := by
  simp [cutName, MAX_NAME_LEN]

namespace PerfMsgQueue

open Layout

/-- `memset` and `msg.type = type`. -/
def blank (type : MessageType) : PerfMessage :=
  (Buf.zero : PerfMessage).put .i32 (offsetOf perfMessage 0) type.code

/-- `memcpy(… , szName, MIN(MAX_NAME_LEN - 1, strlen(szName)))`. -/
def copyName (msg : PerfMessage) (off : Nat) (szName : Option CString) :
    Except Fault PerfMessage :=
  match szName with
  | none => throw .nullPointer
  | some szName => pure (msg.write off (cutName szName.bytes))

def putIds (msg : PerfMessage) (struct : List CType) (self : Sender) : PerfMessage :=
  (msg.put .i32 (dataAt struct 0) self.pID).put .u64 (dataAt struct 1) self.tid

/-- `SendMessage(type, szName, nTimeStamp, nThresholdInUS)`: the message handed to `mq_send`, or
    `none` when the type is refused. `eThreshold` fills `entry`, and so does `eExit` for its
    name. -/
def sendMessage (self : Sender) (type : MessageType) (szName : Option CString)
    (nTimeStamp : UInt64) (nThresholdInUS : Int32) : Except Fault (Option PerfMessage) := do
  let msg := blank type
  match type with
  | .eEntry =>
    let msg := putIds msg entry self
    let msg := msg.put .u64 (dataAt entry 4) nTimeStamp
    let msg := msg.put .i32 (dataAt entry 5) nThresholdInUS
    let msg := msg.write (dataAt entry 3) (self.threadName.bytes ++ [0])
    some <$> copyName msg (dataAt entry 2) szName
  | .eThreshold =>
    let msg := putIds msg entry self
    let msg := msg.put .i32 (dataAt entry 5) nThresholdInUS
    some <$> copyName msg (dataAt entry 2) szName
  | .eExit =>
    let msg := putIds msg exit self
    let msg := msg.put .u64 (dataAt exit 3) nTimeStamp
    some <$> copyName msg (dataAt entry 2) szName
  | .eReportThread => pure (some (putIds msg reportThread self))
  | .eReportProcess => pure (some (msg.put .i32 (dataAt reportProcess 0) self.pID))
  | .eCloseThread => pure (some (putIds msg closeThread self))
  | .eCloseProcess => pure (some (msg.put .i32 (dataAt closeProcess 0) self.pID))
  | .eExitQueue => pure (some msg)
  | .eNoMessage | .eMaxType => pure none

end PerfMsgQueue
end RdkPerf

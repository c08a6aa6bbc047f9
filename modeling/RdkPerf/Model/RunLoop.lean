import RdkPerf.Model.Message

/-!
# The loop of the service (`perfservice.cpp`, `rdk_perf_msgqueue.cpp`)

`RunLoop` asks `ReceiveMessage` for a message, and learns what became of the request from the type
of the message it is given: `eNoMessage` stands for a time-out and `eMaxType` for a failure. What
`mq_timedreceive` does is taken from a list of outcomes. `errno` is part of the state, as a call
that succeeds leaves it as it was.

`RunLoop` does not look at what `HandleMessage` answers, so only what it is called with is kept.
-/

namespace RdkPerf

open Lib

def MESSAGE_TIMEOUT : Int32 := 10000
def MAX_TIMEOUT : UInt32 := 6
def ETIMEDOUT : Int32 := 110

/-- How `mq_timedreceive` can end. No message is longer than the queue's `mq_msgsize`. -/
inductive Outcome where
  | message (msg : PerfMessage)
  | short (bytes : List UInt8) (h : bytes.length < PERF_MSG_SIZE)
  | timedOut
  | failed (errnum : Int32) (h : errnum ≠ ETIMEDOUT)

namespace PerfMsgQueue

/-- What the call answers, with the buffer and `errno` after it. -/
structure Received where
  nRead : UInt64
  buffer : PerfMessage
  errno : Int32

/-- `mq_receive` and `mq_timedreceive`. -/
def mq_receive (errno : Int32) : Outcome → Received
  | .message msg => ⟨UInt64.ofNat PERF_MSG_SIZE, msg, errno⟩
  | .short bytes _ => ⟨UInt64.ofNat bytes.length, (Buf.zero : PerfMessage).write 0 bytes, errno⟩
  | .timedOut => ⟨-1, .zero, ETIMEDOUT⟩
  | .failed errnum _ => ⟨-1, .zero, errnum⟩

/-- `pMsg->type = type`. -/
def setType (msg : PerfMessage) (type : MessageType) : PerfMessage :=
  msg.put .i32 (offsetOf Layout.perfMessage 0) type.code

/-- `ReceiveMessage(pMsg, nTimeoutInMS)`: the message, the answer, and `errno`. -/
def receiveMessage (nTimeoutInMS errno : Int32) (outcome : Outcome) : PerfMessage × Bool × Int32 :=
  let pMsg := blank .eNoMessage
  let ⟨nRead, buffer, errno⟩ := mq_receive errno outcome
  if nTimeoutInMS = 0 then
    -- wait forever
    if nRead < UInt64.ofNat PERF_MSG_SIZE ∨ nRead = -1 then
      (setType pMsg .eMaxType, false, errno)
    else if nRead = UInt64.ofNat PERF_MSG_SIZE then
      (buffer, true, errno)
    else
      (pMsg, true, errno)
  else
    -- use timeout
    if nRead ≠ UInt64.ofNat PERF_MSG_SIZE ∨ nRead = -1 then
      if errno = ETIMEDOUT then
        (setType pMsg .eNoMessage, false, errno)
      else
        (setType pMsg .eMaxType, false, errno)
    else
      (buffer, true, errno)

end PerfMsgQueue

namespace RunLoop

/-- The locals of `RunLoop`, `errno`, and the messages `HandleMessage` was called with. -/
structure State where
  bContinue : Bool
  nTimeoutCount : UInt32
  errno : Int32
  handled : List PerfMessage

def init (errno : Int32) : State := ⟨true, 0, errno, []⟩

/-- The body of the loop, on the message it was given. -/
def body (s : State) (msg : PerfMessage) : State :=
  if msg.type = MessageType.eExitQueue.code ∨ msg.type = MessageType.eMaxType.code then
    { s with bContinue := false }
  else if msg.type = MessageType.eNoMessage.code then
    let s := { s with nTimeoutCount := s.nTimeoutCount + 1 }
    if s.nTimeoutCount > MAX_TIMEOUT then { s with bContinue := false } else s
  else
    { s with nTimeoutCount := 0, handled := s.handled ++ [msg] }

/-- One turn of the loop. When the loop has been left nothing is received. -/
def step (s : State) (outcome : Outcome) : State :=
  if s.bContinue then
    let (msg, _, errno) := PerfMsgQueue.receiveMessage MESSAGE_TIMEOUT s.errno outcome
    body { s with errno := errno } msg
  else
    s

def run (errno : Int32) (outcomes : List Outcome) : State := outcomes.foldl step (init errno)

end RunLoop
end RdkPerf

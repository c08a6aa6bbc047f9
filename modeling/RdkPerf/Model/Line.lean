import RdkPerf.Lib.Spans
import RdkPerf.Model.Tree

/-!
# The line buffer of `PerfNode::ReportData` (`rdk_perf_node.cpp`)

A line of a report is built in an array on the stack: an indent loop moves a pointer over it two
bytes at a time, giving every `snprintf` the size of the whole array, and the last `snprintf` gets
what `strlen` leaves of that size. What the last one formats is `text`: it may be any bytes.
-/

namespace RdkPerf

open Lib

def MAX_BUF_SIZE : Nat := 2048

/-- `buffer`, `ptr`, and what was written through it. -/
structure LineBuffer where
  buffer : Buf MAX_BUF_SIZE := .zero
  ptr : Nat := 0
  writes : List Span := []

namespace LineBuffer

/-- `snprintf(ptr, size, …)`. -/
def snprintf (line : LineBuffer) (size : Nat) (text : List UInt8) : LineBuffer :=
  { line with
    buffer := line.buffer.write line.ptr (printed size text)
    writes := line.writes ++ [⟨line.ptr, (printed size text).length⟩] }

/-- `"--"`. -/
def dashes : List UInt8 := [45, 45]

/-- The body of the indent loop. -/
def indentOnce (line : LineBuffer) : LineBuffer :=
  let line := line.snprintf MAX_BUF_SIZE dashes
  { line with ptr := line.ptr + 2 }

/-- The loop, `nLevel` times from the zeroed array. -/
def indent (nLevel : UInt32) : LineBuffer := indentOnce^[nLevel.toNat] {}

/-- `strlen(buffer)`: `none` when it reads past the array. -/
def strlen (line : LineBuffer) : Option Nat := (line.buffer.cstr 0).map List.length

/-- `MAX_BUF_SIZE - strlen(buffer)`, a `size_t`. -/
def restSize (line : LineBuffer) : Option UInt64 :=
  line.strlen.map fun length => UInt64.ofNat MAX_BUF_SIZE - UInt64.ofNat length

end LineBuffer

/-- The array at the `LOG` of a node's line. With no size to be had there is no last write. -/
def PerfNode.reportBuffer (nLevel : UInt32) (text : List UInt8) : LineBuffer :=
  let line := LineBuffer.indent nLevel
  line.restSize.elim line fun size => line.snprintf size.toNat text

/-- The level a line is printed at. -/
def Printed.level : Printed → Option UInt32
  | .totals nLevel _ | .delta nLevel _ _ => some nLevel
  | _ => none

end RdkPerf

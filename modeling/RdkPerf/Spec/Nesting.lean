import RdkPerf.Model.Api

/-!
# Well-nested traces

What a caller has to do for its stops to be the ends of scopes: each stop closes the innermost
open record of the thread that makes it. This is read off the trace alone — a `Nesting` knows
handles and threads, and nothing of the library.
-/

namespace RdkPerf

namespace Op

def isStart : Op → Bool
  | .start _ _ _ _ => true
  | _ => false

def isStop : Op → Bool
  | .stop _ _ _ => true
  | _ => false

/-- The start or the end of a measured call. -/
def isMeasure : Op → Bool
  | .start _ _ _ _ | .stop _ _ _ => true
  | _ => false

def isReport : Op → Bool
  | .reportProcess _ _ _ | .reportThread _ _ => true
  | _ => false

/-- An explicit removal: `RDKPerf_CloseThread` or `RDKPerf_CloseProcess`. -/
def isClose : Op → Bool
  | .closeThread _ _ | .closeProcess _ _ => true
  | _ => false

/-- A call that is started has a name. -/
def named : Op → Bool
  | .start _ szName _ _ => szName.bytes ≠ []
  | _ => true

/-- The thread that makes the call. -/
def caller : Op → Caller
  | .start caller _ _ _ => caller
  | .stop caller _ _ => caller
  | .setThreshold caller _ _ => caller
  | .reportProcess caller _ _ => caller
  | .reportThread caller _ => caller
  | .closeThread caller _ => caller
  | .closeProcess caller _ => caller

/-- What a start or a stop reads from the clock, and for which thread. -/
def reading : Op → Option (pthread_t × UInt64)
  | .start caller _ _ env | .stop caller _ env => some (caller.tid, env.timeStamp)
  | _ => none

/-- The name cut to what a message carries of it. -/
def cut : Op → Op
  | .start caller szName nThresholdInUS env =>
    .start caller ⟨cutName szName.bytes, fun h => szName.noNul (List.mem_of_mem_take h)⟩
      nThresholdInUS env
  | op => op

theorem named_cut {op : Op} : op.cut.named ↔ op.named := by
  cases op with
  | start caller szName nThresholdInUS env =>
    show decide (cutName szName.bytes ≠ []) = true ↔ decide (szName.bytes ≠ []) = true
    rw [decide_eq_true_iff, decide_eq_true_iff]
    exact cutName_eq_nil.not
  | _ => rfl

end Op

/-- The open handles of each thread, innermost first, and the next handle a start answers. -/
structure Nesting where
  next : Handle
  handles : pthread_t → List Handle

namespace Nesting

def init : Nesting := ⟨0, fun _ => []⟩

def set (n : Nesting) (tID : pthread_t) (hs : List Handle) : Nesting :=
  { n with handles := fun s => if s = tID then hs else n.handles s }

def step (n : Nesting) : Op → Option Nesting
  | .start caller _ _ _ =>
    some { n.set caller.tid (n.next :: n.handles caller.tid) with next := n.next + 1 }
  | .stop caller hPerf _ =>
    match n.handles caller.tid with
    | [] => none
    | top :: rest => if top = hPerf then some (n.set caller.tid rest) else none
  | _ => some n

def run (ops : List Op) : Option Nesting := ops.foldlM step init

theorem run_concat {ops : List Op} {op : Op} {n' : Nesting} :
    run (ops ++ [op]) = some n' ↔ ∃ n, run ops = some n ∧ n.step op = some n' := by
  unfold run
  rw [List.foldlM_append]
  cases ops.foldlM step init with
  | none => simp
  | some n =>
    simp only [Option.bind_eq_bind, Option.bind_some, List.foldlM_cons, List.foldlM_nil]
    constructor
    · intro h
      obtain ⟨n₁, hn₁, heq⟩ := Option.bind_eq_some_iff.mp h
      obtain rfl := Option.some.inj heq
      exact ⟨n, rfl, hn₁⟩
    · rintro ⟨n₁, hn₁, h⟩
      obtain rfl := Option.some.inj hn₁
      rw [h]
      rfl

/-- A stop that is nested closes the top of its thread's stack. -/
theorem step_stop {n n' : Nesting} {caller : Caller} {h : Handle} {env : Env}
    (hn : n.step (.stop caller h env) = some n') :
    ∃ rest, n.handles caller.tid = h :: rest ∧ n' = n.set caller.tid rest := by
  unfold step at hn
  cases hs : n.handles caller.tid with
  | nil => simp [hs] at hn
  | cons top rest =>
    simp only [hs] at hn
    split at hn
    · next htop => exact ⟨rest, by rw [htop], (Option.some.inj hn).symm⟩
    · exact absurd hn (by simp)

theorem step_cut (n : Nesting) (op : Op) : n.step op.cut = n.step op := by
  cases op <;> rfl

/-- The calls on a record in its scope: it is made, given a threshold while it is open, by whatever
    thread, and ended. -/
def Scoped (n : Nesting) : Op → Prop
  | .start _ _ _ _ => True
  | .stop _ _ _ => True
  | .setThreshold _ h _ => ∃ tID, h ∈ n.handles tID
  | .reportProcess _ _ _ => False
  | .reportThread _ _ => False
  | .closeThread _ _ => False
  | .closeProcess _ _ => False

theorem scoped_of_isMeasure {op : Op} (h : op.isMeasure) (n : Nesting) : n.Scoped op := by
  cases op <;> trivial

theorem scoped_cut {n : Nesting} {op : Op} (h : n.Scoped op) : n.Scoped op.cut := by
  cases op <;> exact h

end Nesting

/-- Each stop closes the innermost open record of its thread. -/
def WellNested (ops : List Op) : Prop := ∃ n, Nesting.run ops = some n

/-- `RDKPerf_ReportThread` is called only after a first start has registered the process. -/
def ReportsRegistered (ops : List Op) : Prop :=
  ∀ pre caller tID post, ops = pre ++ .reportThread caller tID :: post → ∃ op ∈ pre, op.isStart

/-! ## Two threads and two names, for the traces shown below -/

def threadA : Caller := ⟨1, ⟨⟨[65], by decide⟩, by decide⟩⟩
def threadB : Caller := ⟨2, ⟨⟨[66], by decide⟩, by decide⟩⟩
def nameF : CString := ⟨[102], by decide⟩
def nameG : CString := ⟨[103], by decide⟩

end RdkPerf

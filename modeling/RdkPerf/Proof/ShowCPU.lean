import RdkPerf.Proof.Alike
import RdkPerf.Proof.Clock
import RdkPerf.Spec.Nesting

/-!
# Showing the CPU changes nothing else

The build with `PERF_SHOW_CPU` keeps CPU figures in its nodes, and none of its functions decides
anything by them. So when the clocks of its records agree with `TimeStamp()` on the time of day, that
build does what the plain one does, call by call: the same trees with the same times, the same
lines, the same faults.

Which of its three figures a clock is read by does not matter to most of that: `Process` compares the
build with a plain one whose clock shows any of them.
-/

namespace RdkPerf

open Lib

variable {R : Likeness} {m m' : Mem} {pID : pid_t}

/-! ## The figures of a clock -/

inductive ClockFigure where
  | wallClock
  | userCPU
  | systemCPU
deriving DecidableEq, Repr

namespace ClockFigure

/-- What a getter of the clock answers in microseconds. -/
def read : ClockFigure → PerfClock → UInt64
  | .wallClock, c => c.getWallClock .microsecond
  | .userCPU, c => c.getUserCPU .microsecond
  | .systemCPU, c => c.getSystemCPU .microsecond

/-- What a record's clock shows when it is marked. -/
def marked (k : ClockFigure) (own : Reading) : UInt64 := k.read (({} : PerfClock).now .marker own)

theorem read_elapsed (k : ClockFigure) (c : PerfClock) (own : Reading) :
    k.read (c.now .elapsed own) = k.marked own - k.read c := by
  cases k with
  | wallClock => simp [read, marked, PerfClock.getters, PerfClock.now]
  | userCPU => simp [read, marked, PerfClock.getters, PerfClock.now]
  | systemCPU => simp [read, marked, PerfClock.getters, PerfClock.now]

/-- The call as the plain build makes it, when `TimeStamp()` is this figure of the clock. -/
def time (k : ClockFigure) : Op × Reading → Op
  | (.start caller szName nThresholdInUS env, own) =>
    .start caller szName nThresholdInUS { env with timeStamp := k.marked own }
  | (.stop caller hPerf env, own) => .stop caller hPerf { env with timeStamp := k.marked own }
  | (op, _) => op

end ClockFigure

/-! ## Records -/

namespace Likeness

/-- The record as the plain build has it. -/
def Record (k : ClockFigure) (this : CpuRecord) (this' : PerfRecord) : Prop :=
  this' = { this.record with startTime := k.read this.clock }

structure Process (R : Likeness) (k : ClockFigure) (s : CpuProc) (s' : InProc) : Prop where
  pID : s'.pID = s.pID
  mem : R.Memory s.mem s'.mem
  records : s.records.Related (Record k) s'.records

end Likeness

namespace CpuRecord

theorem addTo_alike {k : ClockFigure} (h : R.Memory m m') (t : TreePtr) {this : CpuRecord}
    {this' : PerfRecord} (hthis : Likeness.Record k this this') (caller : Caller) :
    Outcomes (fun a b => R.Memory a.1 b.1 ∧ Likeness.Record k a.2 b.2) (this.addTo m t caller)
      (do let (m, this, _) ← PerfTree.addNodeRecord m' t this' caller; pure (m, this)) := by
  have hname : this'.elementName = this.record.elementName := by rw [hthis]
  apply (PerfTree.addNodeRecord_alike h t hname caller).bind
  rintro ⟨m₁, added, pNode⟩ ⟨m₁', added', pNode'⟩ ⟨h₁, hadded, hadded'⟩
  refine .ok ⟨h₁, ?_⟩
  show added' = _
  rw [show added' = _ from hadded', show added = _ from hadded, hthis]

theorem construct_alike (k : ClockFigure) (h : R.Memory m m') (pID : pid_t) (elementName : Name)
    (caller : Caller) (env : Env) (own : Reading) :
    Outcomes (fun a b => R.Memory a.1 b.1 ∧ Likeness.Record k a.2 b.2)
      (construct m pID elementName caller env own)
      (PerfRecord.construct m' pID elementName caller { env with timeStamp := k.marked own }) := by
  let this : CpuRecord :=
    ⟨{ elementName := elementName
       startTime := (({} : PerfClock).now .marker own).getWallClock .microsecond
       idThread := caller.tid }, ({} : PerfClock).now .marker own, rfl⟩
  have hthis : Likeness.Record k this { this.record with startTime := k.marked own } := rfl
  have hadd := fun {m m' : Mem} (h : R.Memory m m') (t : TreePtr) => addTo_alike h t hthis caller
  rw [construct, PerfRecord.construct, RDKPerf_FindProcess_alike h]
  -- in the process that is there, or in a new one
  cases RDKPerf_FindProcess m pID
  case' none => replace h := RDKPerf_InsertProcess_alike h pID
  all_goals
    dsimp only
    rw [PerfProcess.getTree_alike h]
    refine .bind_same _ fun pTree => ?_
    cases pTree with
    | some pTree => exact hadd h pTree
    | none =>
      apply (PerfProcess.newTree_alike h _ _ (by rfl)).bind
      rintro ⟨m₁, _⟩ ⟨m₁', pTree⟩ ⟨h₁, rfl⟩
      cases pTree with
      | none => exact .ok ⟨h₁, rfl⟩
      | some pTree => exact hadd h₁ pTree

end CpuRecord

/-! ## Calls -/

section Calls

variable {k : ClockFigure} {s : CpuProc} {s' : InProc}

/-- The end of a call up to its threshold: it is counted and closed. -/
theorem PerfNode.stop_alike (h : R.Memory m m') (p : NodePtr)
    {deltaTime userCPU systemCPU deltaTime' : UInt64}
    (hcount : ∀ s s', R.stats s s' →
      R.stats (s.increment deltaTime userCPU systemCPU) (s'.increment deltaTime' 0 0)) :
    Outcomes R.Memory
      (PerfNode.incrementData m p deltaTime userCPU systemCPU >>= fun m => PerfNode.closeNode m p)
      (PerfNode.incrementData m' p deltaTime' 0 0 >>= fun m => PerfNode.closeNode m p) := by
  apply (PerfNode.incrementData_alike h p hcount).bind
  intro m₁ m₁' h₁
  exact PerfNode.closeNode_alike h₁ p

namespace CpuProc

theorem onMem_alike (hP : R.Process k s s') (f g : Mem → Except Fault Mem)
    (hfg : Outcomes R.Memory (f s.mem) (g s'.mem)) :
    Outcomes (R.Process k) (s.onMem f) (s'.onMem g) := by
  rw [onMem, InProc.onMem]
  apply hfg.bind
  intro m m' h
  exact .ok ⟨hP.pID, h, hP.records⟩

theorem construct_alike (hP : R.Process k s s') (szName : CString) (nThresholdInUS : Option UInt32)
    (caller : Caller) (env : Env) (own : Reading) :
    Outcomes (R.Process k) (s.construct szName nThresholdInUS caller env own)
      (s'.construct szName nThresholdInUS caller { env with timeStamp := k.marked own }) := by
  rw [construct, InProc.construct, hP.pID]
  apply (CpuRecord.construct_alike k hP.mem s.pID szName.bytes caller env own).bind
  rintro ⟨m, record⟩ ⟨m', record'⟩ ⟨h, rfl⟩
  cases nThresholdInUS with
  | none => exact .ok ⟨rfl, h, hP.records.alloc rfl⟩
  | some nUS => exact .ok ⟨rfl, h, hP.records.alloc rfl⟩

theorem setThreshhold_alike (hP : R.Process k s s') (hPerf : Handle) (nThresholdInUS : UInt32) :
    Outcomes (R.Process k) (s.setThreshhold hPerf nThresholdInUS)
      (s'.setThreshhold hPerf nThresholdInUS) := by
  rw [setThreshhold, InProc.setThreshhold]
  have hget := hP.records.get hPerf
  generalize s.records.get hPerf = o, s'.records.get hPerf = o' at hget ⊢
  cases hget with
  | none => exact .error _
  | some hrecord =>
    refine .ok ⟨hP.pID, hP.mem, hP.records.modify hPerf fun this this' hthis => ?_⟩
    rw [hthis]
    rfl

/-- **Every call but a stop** does the same in both. -/
theorem step_alike (hP : R.Process k s s') {x : Op × Reading} (hx : x.1.isStop = false) :
    Outcomes (R.Process k) (s.step x.2 x.1) (s'.step (k.time x)) := by
  obtain ⟨op, own⟩ := x
  cases op with
  | start caller szName nThresholdInUS env =>
    exact construct_alike hP szName nThresholdInUS caller env own
  | stop caller hPerf env => cases hx
  | setThreshold caller hPerf nThresholdInUS => exact setThreshhold_alike hP hPerf nThresholdInUS
  | reportProcess caller p env =>
    exact onMem_alike hP (InProc.RDKPerf_ReportProcess · p env)
      (InProc.RDKPerf_ReportProcess · p env) (InProc.reportProcess_alike hP.mem p env)
  | reportThread caller tID =>
    apply onMem_alike hP (InProc.RDKPerf_ReportThread · s.pID tID)
      (InProc.RDKPerf_ReportThread · s'.pID tID)
    rw [hP.pID]
    exact InProc.reportThread_alike hP.mem s.pID tID
  | closeThread caller tID =>
    apply onMem_alike hP (InProc.RDKPerf_CloseThread · s.pID tID)
      (InProc.RDKPerf_CloseThread · s'.pID tID)
    rw [hP.pID]
    exact InProc.closeThread_alike hP.mem s.pID tID
  | closeProcess caller p =>
    exact onMem_alike hP (InProc.RDKPerf_CloseProcess · p) (InProc.RDKPerf_CloseProcess · p)
      (RDKPerf_RemoveProcess_alike hP.mem p)

end CpuProc
end Calls

/-! ## Without the CPU figures -/

def TimingStats.plain (s : TimingStats) : TimingStats :=
  { s with
    nUserCPU := 0
    nSystemCPU := 0
    nIntervalUserCPU := 0
    nIntervalSystemCPU := 0
    nTotalUserCPU := 0
    nTotalSystemCPU := 0 }

def PerfNode.plain (n : PerfNode) : PerfNode := { n with stats := n.stats.plain }

def Printed.plain : Printed → Printed
  | .totals nLevel stats => .totals nLevel stats.plain
  | .threshold elementName thresholdInUS deltaTime stats =>
    .threshold elementName thresholdInUS deltaTime stats.plain
  | line => line

def Mem.plain (m : Mem) : Mem :=
  { m with nodes := m.nodes.map PerfNode.plain, log := m.log.map Printed.plain }

/-- The figures and the lines of the plain build. -/
def Likeness.plain : Likeness where
  stats s s' := s' = s.plain
  log l l' := l' = l.map Printed.plain
  root := rfl
  named _ := rfl
  resetInterval h := h ▸ rfl
  nil := rfl
  heading := by
    rintro l _ line hline rfl
    rw [List.map_append]
    cases line <;> first | rfl | cases hline
  totals := by
    rintro l _ s _ nLevel rfl rfl
    rw [List.map_append]
    rfl
  delta := by
    rintro l _ s _ nLevel rfl rfl
    rw [List.map_append]
    rfl

theorem Likeness.Memory.plain (h : Likeness.plain.Memory m m') : m' = m.plain := by
  have hnodes : m'.nodes = m.nodes.map PerfNode.plain := by
    apply h.nodes.eq_map
    intro n n' hn
    rw [hn.rest, show n'.stats = n.stats.plain from hn.stats]
    rfl
  obtain ⟨nodes, trees, processMap, log⟩ := m'
  obtain rfl := hnodes
  obtain rfl := h.trees
  obtain rfl := h.processMap
  obtain rfl := h.log
  rfl

/-- The wall clock of a reading, as `TimeStamp()` has it. -/
def Reading.timeStamp (r : Reading) : UInt64 := PerfClock.convertToUS r.tvSec r.tvUsec

theorem TimingStats.increment_plain (s : TimingStats) (deltaTime userCPU systemCPU : UInt64) :
    s.plain.increment deltaTime 0 0 = (s.increment deltaTime userCPU systemCPU).plain := by
  simp only [increment, plain, UInt64.add_zero]
  rfl

theorem CpuRecord.destruct_alike (h : Likeness.plain.Memory m m') (this : CpuRecord) (env : Env)
    (own : Reading) : Outcomes Likeness.plain.Memory (this.destruct m own)
      (this.record.destruct m' { env with timeStamp := ClockFigure.wallClock.marked own }) := by
  have hdelta : ClockFigure.wallClock.marked own - this.record.startTime =
      (this.clock.now .elapsed own).getWallClock .microsecond := by
    rw [this.startTime_eq]
    exact (ClockFigure.wallClock.read_elapsed this.clock own).symm
  rw [destruct, PerfRecord.destruct, hdelta]
  cases this.record.nodeInTree with
  | none => exact .error _
  | some pNode =>
    dsimp only
    rw [← bind_assoc, ← bind_assoc]
    apply (PerfNode.stop_alike h pNode ?_).bind
    · intro m₁ m₁' h₁
      split
      · apply (h₁.node pNode).bind
        intro node node' hnode
        apply PerfNode.reportData_alike
        refine ⟨h₁.nodes, h₁.trees, h₁.processMap, ?_⟩
        show m₁'.log ++ _ = (m₁.log ++ _).map Printed.plain
        rw [List.map_append, show m₁'.log = _ from h₁.log, show node'.stats = _ from hnode.stats]
        rfl
      · exact .ok h₁
    · rintro s _ rfl
      exact s.increment_plain _ _ _

/-! ## The builds -/

namespace CpuProc

variable {s : CpuProc} {s' : InProc}

/-- The process, as the plain build would have it. -/
def plain (s : CpuProc) : InProc := ⟨s.pID, s.mem.plain, s.records.map CpuRecord.record⟩

/-- **One call**, with the wall clock for the time. -/
theorem step_plain (hP : Likeness.plain.Process .wallClock s s') (x : Op × Reading) :
    Outcomes (Likeness.plain.Process .wallClock) (s.step x.2 x.1)
      (s'.step (ClockFigure.wallClock.time x)) := by
  obtain ⟨op, own⟩ := x
  by_cases hstop : op.isStop = false
  · exact step_alike hP hstop
  · cases op with
    | stop caller hPerf env =>
      have hrecord := hP.records.get hPerf
      show Outcomes _ (s.destruct hPerf own) (s'.destruct hPerf _)
      rw [destruct, InProc.destruct]
      generalize s.records.get hPerf = o, s'.records.get hPerf = o' at hrecord ⊢
      cases hrecord with
      | none => exact .error _
      | some hthis =>
        rename_i this this'
        obtain rfl : this' = this.record := hthis.trans
          (congrArg (fun startTime => { this.record with startTime := startTime })
            this.startTime_eq.symm)
        apply (this.destruct_alike hP.mem env own).bind
        intro m m' h
        exact .ok ⟨hP.pID, h, hP.records.free hPerf⟩
    | start _ _ _ _ | setThreshold _ _ _ | reportProcess _ _ _ | reportThread _ _
    | closeThread _ _ | closeProcess _ _ => exact absurd rfl hstop

end CpuProc

end RdkPerf

import RdkPerf.Proof.ShowCPU
import RdkPerf.Proof.Printing
import RdkPerf.Proof.Times

/-!
# The CPU of the calls

The build with `PERF_SHOW_CPU` keeps two figures in a node beside the time: what the process used of
the CPU as a user and in the system while the calls at its path ran. They are kept as the time is:
whichever figure of a clock is looked at, the nodes have of it what the plain build has as times if
`TimeStamp()` shows that figure (`figure_run`). The two builds print their threshold reports at
different moments then, and nothing but the log is the worse for it.

So what is known of the times is known of the CPU: a node shows what the calls at its path used
(`figure_booked`).
-/

namespace RdkPerf

open Lib

variable {m m' : Mem} {p : NodePtr} {pID : pid_t}

/-! ## What a node keeps of a figure -/

namespace ClockFigure

/-- Of the last call, … -/
def last : ClockFigure → TimingStats → UInt64
  | .wallClock, s => s.nLastDelta
  | .userCPU, s => s.nUserCPU
  | .systemCPU, s => s.nSystemCPU

/-- … of the calls since the last report, … -/
def interval : ClockFigure → TimingStats → UInt64
  | .wallClock, s => s.nIntervalTime
  | .userCPU, s => s.nIntervalUserCPU
  | .systemCPU, s => s.nIntervalSystemCPU

/-- … and of all of them. -/
def total : ClockFigure → TimingStats → UInt64
  | .wallClock, s => s.nTotalTime
  | .userCPU, s => s.nTotalUserCPU
  | .systemCPU, s => s.nTotalSystemCPU

/-- What is kept of the figure, where the times are kept. -/
def asTime (k : ClockFigure) (n : PerfNode) : PerfNode :=
  { n with
    stats :=
      { elementName := n.stats.elementName
        nTotalTime := k.total n.stats
        nTotalCount := n.stats.nTotalCount
        nIntervalTime := k.interval n.stats
        nIntervalCount := n.stats.nIntervalCount
        nLastDelta := k.last n.stats } }

/-- The counts, and the figure in place of the time. -/
structure Kept (k : ClockFigure) (s s' : TimingStats) : Prop where
  elementName : s'.elementName = s.elementName
  totalCount : s'.nTotalCount = s.nTotalCount
  intervalCount : s'.nIntervalCount = s.nIntervalCount
  last : s'.nLastDelta = k.last s
  interval : s'.nIntervalTime = k.interval s
  total : s'.nTotalTime = k.total s

/-- What the log shows is left open. -/
def likeness (k : ClockFigure) : Likeness where
  stats := k.Kept
  log _ _ := True
  root := by cases k <;> exact ⟨rfl, rfl, rfl, rfl, rfl, rfl⟩
  named _ := by cases k <;> exact ⟨rfl, rfl, rfl, rfl, rfl, rfl⟩
  resetInterval h := by
    cases k <;> exact ⟨h.elementName, h.totalCount, rfl, h.last, rfl, h.total⟩
  nil := trivial
  heading _ _ := trivial
  totals _ _ _ := trivial
  delta _ _ _ := trivial

theorem kept_increment {k : ClockFigure} {s s' : TimingStats} (h : k.Kept s s') (c : PerfClock) :
    k.Kept (s.increment (ClockFigure.wallClock.read c) (ClockFigure.userCPU.read c)
      (ClockFigure.systemCPU.read c)) (s'.increment (k.read c) 0 0) where
  elementName := h.elementName
  totalCount := congrArg (· + 1) h.totalCount
  intervalCount := congrArg (· + 1) h.intervalCount
  last := by cases k <;> rfl
  interval := by cases k <;> exact congrArg (· + _) h.interval
  total := by cases k <;> exact congrArg (· + _) h.total

theorem asTime_eq {k : ClockFigure} {n n' : PerfNode} (h : k.likeness.Node n n') :
    ClockFigure.wallClock.asTime n' = k.asTime n := by
  have hkept : k.Kept n.stats n'.stats := h.stats
  rw [h.rest]
  simp only [asTime, last, interval, total, hkept.elementName, hkept.totalCount,
    hkept.intervalCount, hkept.last, hkept.interval, hkept.total]

end ClockFigure

/-! ## The end of a call -/

/-- A change of the log only. -/
structure LogOnly (m m' : Mem) : Prop where
  nodes : m'.nodes = m.nodes
  trees : m'.trees = m.trees
  processMap : m'.processMap = m.processMap

theorem LogOnly.trans {m₁ : Mem} (h : LogOnly m m₁) (h₁ : LogOnly m₁ m') : LogOnly m m' :=
  ⟨h₁.nodes.trans h.nodes, h₁.trees.trans h.trees, h₁.processMap.trans h.processMap⟩

theorem PerfNode.reportDelta_logOnly {fuel : Nat} {nLevel : UInt32}
    (h : PerfNode.reportDataNested true fuel m p nLevel = .ok m') : LogOnly m m' := by
  induction fuel generalizing m m' p nLevel with
  | zero => exact absurd h (by simp [PerfNode.reportDataNested])
  | succ fuel ih =>
    obtain ⟨n, -, h⟩ := bind_eq_ok.mp h
    obtain ⟨m₁, hm₁, h⟩ := bind_eq_ok.mp h
    obtain rfl := Except.ok.inj h
    refine foldlM_inv (I := fun m₂ => LogOnly m m₂) ?_ ?_ hm₁
    · intro m₂ entry m₃ _ hI hm₃
      exact hI.trans (ih hm₃)
    · exact ⟨rfl, rfl, rfl⟩

theorem thresholdReport_logOnly {this : PerfRecord} {deltaTime : UInt64}
    (h : (if this.exceeded deltaTime then do
        let node ← m.node p
        PerfNode.reportData (m.print (.threshold this.elementName this.thresholdInUS deltaTime
          node.stats)) p 0 true
      else pure m) = .ok m') : LogOnly m m' := by
  split at h
  · obtain ⟨node, -, h⟩ := bind_eq_ok.mp h
    have hline : LogOnly m (m.print (.threshold this.elementName this.thresholdInUS deltaTime
      node.stats)) := ⟨rfl, rfl, rfl⟩
    exact hline.trans (PerfNode.reportDelta_logOnly h)
  · obtain rfl := Except.ok.inj h
    exact ⟨rfl, rfl, rfl⟩

/-- A destructor counts the call and closes it; what it does after that only shows in the log. -/
theorem PerfRecord.destruct_counts {this : PerfRecord} {env : Env}
    (h : this.destruct m env = .ok m') : ∃ p m₁, this.nodeInTree = some p ∧
      (PerfNode.incrementData m p (env.timeStamp - this.startTime) 0 0 >>= fun m =>
        PerfNode.closeNode m p) = .ok m₁ ∧ LogOnly m₁ m' := by
  unfold PerfRecord.destruct at h
  cases hnode : this.nodeInTree with
  | none => simp [hnode] at h
  | some p =>
    simp only [hnode] at h
    obtain ⟨m₁, hcount, h⟩ := bind_eq_ok.mp h
    obtain ⟨m₂, hclose, h⟩ := bind_eq_ok.mp h
    exact ⟨p, m₂, rfl, bind_eq_ok.mpr ⟨m₁, hcount, hclose⟩, thresholdReport_logOnly h⟩

theorem CpuRecord.destruct_counts {this : CpuRecord} {own : Reading}
    (h : this.destruct m own = .ok m') : ∃ p m₁, this.record.nodeInTree = some p ∧
      (PerfNode.incrementData m p (ClockFigure.wallClock.read (this.clock.now .elapsed own))
        (ClockFigure.userCPU.read (this.clock.now .elapsed own))
        (ClockFigure.systemCPU.read (this.clock.now .elapsed own)) >>= fun m =>
          PerfNode.closeNode m p) = .ok m₁ ∧ LogOnly m₁ m' := by
  unfold CpuRecord.destruct at h
  cases hnode : this.record.nodeInTree with
  | none => simp [hnode] at h
  | some p =>
    simp only [hnode] at h
    obtain ⟨m₁, hcount, h⟩ := bind_eq_ok.mp h
    obtain ⟨m₂, hclose, h⟩ := bind_eq_ok.mp h
    exact ⟨p, m₂, rfl, bind_eq_ok.mpr ⟨m₁, hcount, hclose⟩, thresholdReport_logOnly h⟩

/-! ## Runs -/

section Runs

variable {k : ClockFigure} {s s₁ : CpuProc} {s' : InProc} {L : Ledger} {ops : List (Op × Reading)}

theorem Likeness.Memory.logOnly {m₁ m₁' : Mem} (h : k.likeness.Memory m m') (hm : LogOnly m m₁)
    (hm' : LogOnly m' m₁') : k.likeness.Memory m₁ m₁' := by
  refine ⟨?_, ?_, ?_, trivial⟩
  · rw [hm.nodes, hm'.nodes]
    exact h.nodes
  · rw [hm.trees, hm'.trees, h.trees]
  · rw [hm.processMap, hm'.processMap, h.processMap]

/-- A stop of the one build is a stop of the other: its node is there, and so its call is open. -/
theorem stop_legal (hP : k.likeness.Process k s s') (hS : Sim pID s' L) {caller : Caller}
    {hPerf : Handle} {env : Env} {this : CpuRecord} {this' : PerfRecord} {n : PerfNode}
    (hget : s'.records.get hPerf = some this') (hthis : Likeness.Record k this this')
    (hnode : this.record.nodeInTree = some p) (hn : s.mem.nodes.get p = some n) :
    Legal L (.stop caller hPerf env) := by
  rcases hS.loose hget with ⟨calls, hopen⟩ | ⟨q, hq, -, hdead⟩
  · exact ⟨_, calls, hopen⟩
  · have hnode' : this'.nodeInTree = some p := by
      rw [hthis]
      exact hnode
    obtain rfl := Option.some.inj (hnode'.symm.trans hq)
    have hp := hP.mem.nodes.get p
    rw [hn, hdead] at hp
    cases hp

/-- **A stop.** -/
theorem stop_figure (hP : k.likeness.Process k s s') (hS : Sim pID s' L) {caller : Caller}
    {hPerf : Handle} {env : Env} {own : Reading}
    (hstep : s.step own (.stop caller hPerf env) = .ok s₁) :
    ∃ s₁', s'.step (k.time (.stop caller hPerf env, own)) = .ok s₁' ∧
      k.likeness.Process k s₁ s₁' := by
  simp only [CpuProc.step, CpuProc.destruct] at hstep
  have hrecord := hP.records.get hPerf
  cases hget : s.records.get hPerf with
  | none => simp [hget] at hstep
  | some this =>
    rw [hget] at hrecord hstep
    obtain ⟨m, hm, hstep⟩ := bind_eq_ok.mp hstep
    obtain rfl := Except.ok.inj hstep
    cases hget' : s'.records.get hPerf with
    | none =>
      rw [hget'] at hrecord
      cases hrecord
    | some this' =>
      rw [hget'] at hrecord
      have hthis : Likeness.Record k this this' := by
        cases hrecord with
        | some h => exact h
      obtain ⟨p, m₁, hnode, hcount, hlog⟩ := CpuRecord.destruct_counts hm
      obtain ⟨n, hn⟩ : ∃ n, s.mem.nodes.get p = some n := by
        obtain ⟨m₀, hinc, -⟩ := bind_eq_ok.mp hcount
        obtain ⟨n, hn, -⟩ := bind_eq_ok.mp hinc
        exact ⟨n, Mem.node_eq_ok.mp hn⟩
      have hlegal : Legal L (k.time (.stop caller hPerf env, own)) :=
        stop_legal hP hS hget' hthis hnode hn
      obtain ⟨s₁', hs₁', -⟩ := hS.step_ok hlegal
      refine ⟨s₁', hs₁', ?_⟩
      simp only [ClockFigure.time, InProc.step, InProc.destruct, hget'] at hs₁'
      obtain ⟨m', hm', hs₁'⟩ := bind_eq_ok.mp hs₁'
      obtain rfl := Except.ok.inj hs₁'
      obtain ⟨p', m₁', hnode', hcount', hlog'⟩ := PerfRecord.destruct_counts hm'
      obtain rfl : p' = p := by
        rw [hthis] at hnode'
        exact Option.some.inj (hnode'.symm.trans hnode)
      have hdelta : k.marked own - this'.startTime = k.read (this.clock.now .elapsed own) := by
        rw [hthis]
        exact (k.read_elapsed this.clock own).symm
      have halike := PerfNode.stop_alike hP.mem p' fun s s' h =>
        ClockFigure.kept_increment h (this.clock.now .elapsed own)
      rw [hcount, ← hdelta, hcount'] at halike
      cases halike with
      | ok h => exact ⟨hP.pID, h.logOnly hlog hlog', hP.records.free hPerf⟩

theorem run_figure (k : ClockFigure) (h : CpuProc.run pID ops = .ok s) :
    ∃ s', InProc.run pID (ops.map k.time) = .ok s' ∧ k.likeness.Process k s s' := by
  induction ops using List.reverseRecOn generalizing s with
  | nil =>
    obtain rfl := Except.ok.inj h
    exact ⟨.init pID, rfl, rfl, .init _, .empty⟩
  | append_singleton ops x ih =>
    obtain ⟨s₀, h₀, hstep⟩ := foldlM_concat_ok.mp h
    obtain ⟨s₀', h₀', hP⟩ := ih h₀
    obtain ⟨s', hs', hP'⟩ : ∃ s', s₀'.step (k.time x) = .ok s' ∧ k.likeness.Process k s s' := by
      by_cases hstop : x.1.isStop = false
      · have halike := CpuProc.step_alike hP hstop
        rw [hstep] at halike
        exact halike.exists_of_ok
      · obtain ⟨op, own⟩ := x
        cases op with
        | stop caller hPerf env => exact stop_figure hP (InProc.run_sim h₀') hstep
        | start _ _ _ _ | setThreshold _ _ _ | reportProcess _ _ _ | reportThread _ _
        | closeThread _ _ | closeProcess _ _ => exact absurd rfl hstop
    refine ⟨s', ?_, hP'⟩
    rw [List.map_append]
    exact foldlM_concat_ok.mpr ⟨s₀', h₀', hs'⟩

end Runs

/-- **The CPU is kept as the time is.** Where the build with `PERF_SHOW_CPU` comes through a run, so
    does the plain build with any figure of the clocks for the time; and the trees are the same, with
    the figure where that build has the times: of the last call, since the last report and in all. -/
theorem figure_run (k : ClockFigure) {ops : List (Op × Reading)} {s : CpuProc}
    (h : CpuProc.run pID ops = .ok s) : ∃ s', InProc.run pID (ops.map k.time) = .ok s' ∧
      s'.mem.trees = s.mem.trees ∧ s'.mem.processMap = s.mem.processMap ∧
      s'.mem.nodes.map ClockFigure.wallClock.asTime = s.mem.nodes.map k.asTime := by
  obtain ⟨s', hs', hP⟩ := run_figure k h
  refine ⟨s', hs', hP.mem.trees, hP.mem.processMap, ?_⟩
  exact hP.mem.nodes.map_eq fun _ _ hn => ClockFigure.asTime_eq hn

/-- `f` runs for ten microseconds, and uses the CPU for three of them: too long for its threshold by
    the wall clock, and not by the CPU. -/
def cpuRun : List (Op × Reading) :=
  [(.start threadA nameF (some 5) {}, { utimeUsec := 2, stimeUsec := 1 }),
    (.stop threadA 0 {}, { tvUsec := 10, utimeUsec := 5, stimeUsec := 1 })]

theorem cpuRun_user : ∃ s s', CpuProc.run 42 cpuRun = .ok s ∧
    (s.mem.nodes.get 1).map (fun n => (n.stats.nTotalTime, n.stats.nTotalUserCPU)) = some (10, 3) ∧
    InProc.run 42 (cpuRun.map ClockFigure.userCPU.time) = .ok s' ∧
    s.mem.log ≠ [] ∧ s'.mem.log = [] ∧
    s'.mem.trees = s.mem.trees ∧ s'.mem.processMap = s.mem.processMap ∧
    s'.mem.nodes.map ClockFigure.wallClock.asTime = s.mem.nodes.map ClockFigure.userCPU.asTime := by
  obtain ⟨s, hs, hread⟩ := ok_of_toOption_bind (show (CpuProc.run 42 cpuRun).toOption.bind
    (fun s => some (s.mem.log.isEmpty, (s.mem.nodes.get 1).map fun n =>
      (n.stats.nTotalTime, n.stats.nTotalUserCPU))) = some (false, some (10, 3)) by decide)
  obtain ⟨hlog, hnode⟩ := Prod.mk.inj (Option.some.inj hread)
  obtain ⟨s', hs', hfigures⟩ := figure_run .userCPU hs
  obtain ⟨s₁, hs₁, hlog'⟩ := ok_of_toOption_bind
    (show (InProc.run 42 (cpuRun.map ClockFigure.userCPU.time)).toOption.bind
      (fun s => some s.mem.log.isEmpty) = some true by decide)
  obtain rfl := Except.ok.inj (hs'.symm.trans hs₁)
  refine ⟨s, s', hs, hnode, hs', ?_, List.isEmpty_iff.mp (Option.some.inj hlog'), hfigures⟩
  intro hnil
  rw [hnil] at hlog
  exact absurd hlog (by simp)

/-! ## The calls at a path -/

/-- A node shows the last call at its path, and nothing as long as there is none. -/
theorem statsAt_last {π : Path} (hπ : π ≠ []) (es : List Event) :
    (statsAt π es).nLastDelta = (elapsedAt π es).headD 0 := by
  induction es with
  | nil =>
    rw [statsAt, if_neg hπ]
    rfl
  | cons e es ih =>
    cases e with
    | enter σ => exact ih
    | report active => exact ih
    | leave σ d =>
      rw [statsAt, elapsedAt]
      by_cases hσ : σ = π
      · rw [if_pos hσ, if_pos hσ]
        rfl
      · rw [if_neg hσ, if_neg hσ]
        exact ih

/-- What a node keeps of a figure is what the calls at its path took of it. -/
structure FigureBooked (k : ClockFigure) (π : Path) (s : TimingStats) (es : List Event) : Prop where
  total : k.total s = (elapsedAt π es).sum
  interval : k.interval s = (elapsedAt π (sinceReport es)).sum
  last : k.last s = (elapsedAt π es).headD 0
  totalCount : s.nTotalCount = UInt64.ofNat (elapsedAt π es).length
  intervalCount : s.nIntervalCount = UInt64.ofNat (elapsedAt π (sinceReport es)).length

theorem ClockFigure.Kept.booked {k : ClockFigure} {π : Path} {s s' : TimingStats} {es : List Event}
    (h : k.Kept s s') (hπ : π ≠ []) (hs : s' = statsAt π es) : FigureBooked k π s es := by
  obtain ⟨hcount, htime, -⟩ := statsAt_totals es hπ
  obtain ⟨hintervalCount, hinterval⟩ := statsAt_interval es hπ
  constructor
  · rw [← h.total, hs, htime]
  · rw [← h.interval, hs, hinterval]
  · rw [← h.last, hs, statsAt_last hπ]
  · rw [← h.totalCount, hs, hcount]
  · rw [← h.intervalCount, hs, hintervalCount]

namespace Likeness

variable {R : Likeness}

theorem Memory.get (h : R.Memory m m') {n : PerfNode} (hn : m.nodes.get p = some n) :
    ∃ n', m'.nodes.get p = some n' ∧ R.Node n n' := by
  have hp := h.nodes.get p
  rw [hn] at hp
  generalize m'.nodes.get p = o at hp ⊢
  cases hp with
  | some h => exact ⟨_, rfl, h⟩

theorem Memory.childOf_eq (h : R.Memory m m') : childOf m' = childOf m := by
  funext p name
  have hp := h.nodes.get p
  rw [childOf, childOf]
  generalize m.nodes.get p = o, m'.nodes.get p = o' at hp ⊢
  cases hp with
  | none => rfl
  | some hn => exact congrArg (·[name]?) hn.childNodes

end Likeness

/-- **What a node shows of the CPU is what the calls at its path used**, in the last call, since the
    last report and in all, whatever the order of the stops; and the same of the time. The ledger
    books each call with the difference between what its record's clock shows at the stop and what it
    showed at the start. -/
theorem figure_booked (k : ClockFigure) {ops : List (Op × Reading)} {s : CpuProc}
    (h : CpuProc.run pID ops = .ok s) {tID : pthread_t} {t : TreePtr} {tree : PerfTree}
    {r : NodePtr} {π : Path} {node : PerfNode} (ht : s.mem.treePtr pID tID = some t)
    (htree : s.mem.trees.get t = some tree) (hroot : tree.rootNode = some r) (hπ : π ≠ [])
    (hnode : s.mem.nodeAt r π = some node) :
    ∃ l, (Ledger.run pID (ops.map k.time)).thread tID = some l ∧
      FigureBooked k π node.stats l.events := by
  obtain ⟨s', hs', hP⟩ := run_figure k h
  have hS := InProc.run_sim hs'
  obtain ⟨r', ct, hA⟩ := hS.rep.present ((Mem.treePtr_congr hP.mem.processMap).trans ht)
  have hct := hA.spec
  rw [hS.pID, Ledger.world_tree_self] at hct
  obtain ⟨l, hl, rfl⟩ := Option.map_eq_some_iff.mp hct
  refine ⟨l, hl, ?_⟩
  -- the tree of the plain build is the same one
  obtain ⟨stack, hobject, -⟩ := hA.tracks.tree
  rw [hP.mem.trees, htree] at hobject
  obtain rfl := Option.some.inj hobject
  obtain rfl : r' = r := Option.some.inj hroot
  obtain ⟨p, hp, hn⟩ := Option.bind_eq_some_iff.mp hnode
  obtain ⟨n', hn', hlike⟩ := hP.mem.get hn
  rw [← hP.mem.childOf_eq] at hp
  exact ClockFigure.Kept.booked hlike.stats hπ (hA.tracks.stats_eq hp hn')

/-- The user's CPU of the call in `cpuRun`. -/
theorem cpuRun_booked : ∃ s t tree r node l, CpuProc.run 42 cpuRun = .ok s ∧
    s.mem.treePtr 42 1 = some t ∧ s.mem.trees.get t = some tree ∧ tree.rootNode = some r ∧
    s.mem.nodeAt r [nameF.bytes] = some node ∧ node.stats.nTotalUserCPU = 3 ∧
    (Ledger.run 42 (cpuRun.map ClockFigure.userCPU.time)).thread 1 = some l ∧
    FigureBooked .userCPU [nameF.bytes] node.stats l.events := by
  obtain ⟨s, hs, hread⟩ := ok_of_toOption_bind (show (CpuProc.run 42 cpuRun).toOption.bind
    (fun s => (s.mem.treePtr 42 1).bind fun t => (s.mem.trees.get t).bind fun tree =>
      tree.rootNode.bind fun r => (s.mem.nodeAt r [nameF.bytes]).map
        (·.stats.nTotalUserCPU)) = some 3 by decide)
  obtain ⟨t, ht, hread⟩ := Option.bind_eq_some_iff.mp hread
  obtain ⟨tree, htree, hread⟩ := Option.bind_eq_some_iff.mp hread
  obtain ⟨r, hroot, hread⟩ := Option.bind_eq_some_iff.mp hread
  obtain ⟨node, hnode, htotal⟩ := Option.map_eq_some_iff.mp hread
  obtain ⟨l, hl, hbooked⟩ := figure_booked .userCPU hs ht htree hroot (by simp) hnode
  exact ⟨s, t, tree, r, node, l, hs, ht, htree, hroot, hnode, htotal, hl, hbooked⟩

end RdkPerf

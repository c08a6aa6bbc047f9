import RdkPerf.Proof.ReportLines
import RdkPerf.Proof.ReportTimes

/-!
# The log of the in-process build is a function of its trace

`Prints` says what one call adds to the log and to which reading it marks the clock, from the calls
made before it; `Logs` says it of a run. Both are about the trace: the ledger, the last thresholds
and the readings. `run_log` is that the build prints this and nothing else, whatever threads call
it and in whatever order their calls are stopped.
-/

namespace RdkPerf

open Lib

/-! ## What a trace calls for -/

/-- A stop of a call that took too long shows the call, and what was last measured below it. -/
def Ledger.StopShows (L : Ledger) (pre : List Op) (h : Handle) (env : Env)
    (lines : List Printed) : Prop :=
  ∃ tID l calls d below, L.thread tID = some l ∧ Frames.trail h l.frames = some calls ∧
    (l.stop h env.timeStamp).callTree.node (pathOf calls) = some d ∧
    (l.stop h env.timeStamp).callTree.Shown true (pathOf calls) below ∧
    lines = .threshold (Path.label (pathOf calls)) ((thresholdOf pre h).elim (-1) UInt32.toInt32)
      (env.timeStamp - startOf calls) d.stats :: below

/-- What a call prints that comes after the calls `pre`, and the marks it leaves. -/
def Prints (pID : pid_t) (pre : List Op) (mark : LastMark) (op : Op) (lines : List Printed)
    (mark' : LastMark) : Prop :=
  let L := Ledger.run pID pre
  match op with
  | .start caller _ _ env =>
    lines = [] ∧ mark' = (L.world pID).markEntered mark pID caller.tid env
  | .stop _ h env =>
    (Exceeds pre h env → L.StopShows pre h env lines) ∧ (¬ Exceeds pre h env → lines = []) ∧
      mark' = mark
  | .reportThread _ tID => (L.world pID).ThreadReport pID tID lines ∧ mark' = mark
  | .reportProcess _ p env => (L.world pID).Report mark p env lines mark'
  | .setThreshold _ _ _ => lines = [] ∧ mark' = mark
  | .closeThread _ _ => lines = [] ∧ mark' = mark
  | .closeProcess _ _ => lines = [] ∧ mark' = mark

/-- The log of a run, and the marks after it. -/
inductive Logs (pID : pid_t) : List Op → LastMark → List Printed → Prop where
  | nil : Logs pID [] .init []
  | call {pre op mark mark' log lines} (h : Logs pID pre mark log)
      (hprints : Prints pID pre mark op lines mark') :
      Logs pID (pre ++ [op]) mark' (log ++ lines)

/-! ## The clocks -/

section Clocks

variable {m m' : Mem} {w : World} {pID : pid_t} {tID : pthread_t} {mark : LastMark} {env : Env}
  {b : Bool}

theorem PerfProcess.newTree_clocked {pTree : Option TreePtr}
    (h : ∀ p proc, p ≠ pID → m.processMap[p]? = some proc → proc.clock = .marked (mark p))
    (hrun : PerfProcess.newTree m pID tID env = .ok (m', pTree)) :
    Clocked m' (mark.set pID env.marker) := by
  obtain ⟨proc, -, hrun⟩ := bind_eq_ok.mp hrun
  cases ht : proc.mapThreads[tID]? with
  | none =>
    simp only [ht] at hrun
    obtain ⟨rfl, -⟩ := Prod.mk.inj (Except.ok.inj hrun)
    refine .marker ?_ fun proc => ⟨proc.clock, rfl⟩
    intro p proc' hp hproc'
    rw [Mem.modifyProcess_processMap, Std.ExtTreeMap.getElem?_modify,
      if_neg (by simpa using fun h => hp h.symm)] at hproc'
    exact h p proc' hp hproc'
  | some pTree =>
    simp only [ht] at hrun
    obtain ⟨_, -, hrun⟩ := bind_eq_ok.mp hrun
    obtain ⟨rfl, -⟩ := Prod.mk.inj (Except.ok.inj hrun)
    exact .marker h fun proc => ⟨proc.clock, rfl⟩

theorem PerfProcess.closeInactiveThreads_clocked (h : Clocked m mark)
    (hrun : PerfProcess.closeInactiveThreads m pID = .ok (m', b)) : Clocked m' mark := by
  apply closeInactiveThreads_inv (I := fun m => Clocked m mark) _ _ hrun h
  · intro m₁ m₂ t hdelete hI
    exact hI.of_processMap (PerfTree.delete_treesOnly hdelete).processMap
  · intro m₁ tID hI
    exact hI.modifyProcess fun _ => rfl

theorem PerfProcess.removeTree_silent (h : Clocked m mark)
    (hrun : PerfProcess.removeTree m pID tID = .ok (m', b)) :
    m'.log = m.log ∧ Clocked m' mark := by
  obtain ⟨proc, -, hrun⟩ := bind_eq_ok.mp hrun
  cases ht : proc.mapThreads[tID]? with
  | none =>
    simp only [ht] at hrun
    obtain ⟨rfl, -⟩ := Prod.mk.inj (Except.ok.inj hrun)
    exact ⟨rfl, h⟩
  | some pTree =>
    simp only [ht] at hrun
    obtain ⟨m₁, hm₁, hrun⟩ := bind_eq_ok.mp hrun
    obtain ⟨rfl, -⟩ := Prod.mk.inj (Except.ok.inj hrun)
    have htrees := PerfTree.delete_treesOnly hm₁
    exact ⟨htrees.log, (h.of_processMap htrees.processMap).modifyProcess fun _ => rfl⟩

theorem removeProcess_silent (h : Clocked m mark) (hrun : RDKPerf_RemoveProcess m pID = .ok m') :
    m'.log = m.log ∧ Clocked m' mark := by
  unfold RDKPerf_RemoveProcess at hrun
  cases hfind : RDKPerf_FindProcess m pID with
  | none =>
    rw [hfind] at hrun
    obtain rfl := Except.ok.inj hrun
    exact ⟨rfl, h⟩
  | some pProcess =>
    rw [hfind] at hrun
    obtain ⟨m₁, hm₁, hrun⟩ := bind_eq_ok.mp hrun
    obtain rfl := Except.ok.inj hrun
    obtain ⟨proc, -, hm₁⟩ := bind_eq_ok.mp hm₁
    have htrees : TreesOnly m m₁ :=
      foldlM_inv (fun _ _ _ _ hI hdelete => hI.trans (PerfTree.delete_treesOnly hdelete)) (.refl m)
        hm₁
    refine ⟨htrees.log, fun p proc' hproc' => ?_⟩
    rw [Std.ExtTreeMap.getElem?_erase, htrees.processMap] at hproc'
    split at hproc'
    · exact absurd hproc' (by simp)
    · exact h p proc' hproc'

/-- **Find or create** marks the clock where it creates. -/
theorem getTree_clocked (h : Rep m w) (hc : Clocked m mark) {pTree : Option TreePtr}
    (hrun : Service.getTree m pID tID true env = .ok (m', pTree)) :
    Clocked m' (w.markEntered mark pID tID env) := by
  cases hreg : w.registered pID with
  | true =>
    rw [Service.getTree_found (Service.find_registered h hreg), Service.getTreeIn,
      getTree_spec h hreg, ok_bind] at hrun
    rw [World.markEntered]
    cases ht : m.treePtr pID tID with
    | some t =>
      obtain ⟨r, ct, hA⟩ := h.present ht
      rw [ht] at hrun
      obtain ⟨rfl, -⟩ := Prod.mk.inj (Except.ok.inj hrun)
      rw [hA.spec]
      exact hc
    | none =>
      rw [ht] at hrun
      rw [h.absent ht]
      exact PerfProcess.newTree_clocked (fun p proc _ => hc p proc) hrun
  | false =>
    rw [Service.getTree_inserted (Service.find_unregistered h hreg), Service.getTreeIn] at hrun
    obtain ⟨found, hfound, hrun⟩ := bind_eq_ok.mp hrun
    have hothers : ∀ p proc, p ≠ pID →
        (RDKPerf_InsertProcess m pID).processMap[p]? = some proc →
          proc.clock = .marked (mark p) := by
      intro p proc hp hproc
      rw [RDKPerf_InsertProcess, Std.ExtTreeMap.getElem?_insertIfNew,
        if_neg fun hk => hp (Std.LawfulEqCmp.eq_of_compare hk.1).symm] at hproc
      exact hc p proc hproc
    rw [World.markEntered, h.tree_none_of_unregistered hreg]
    -- there is no thread in the process that was just inserted
    have hrep := (insertProcess_spec h pID).rep
    have hnone : (RDKPerf_InsertProcess m pID).treePtr pID tID = none := by
      rw [hrep.treePtr_none_iff, World.register_tree]
      exact h.tree_none_of_unregistered hreg
    rw [getTree_spec hrep (by simp), hnone] at hfound
    obtain rfl := Except.ok.inj hfound
    exact PerfProcess.newTree_clocked hothers hrun

end Clocks

/-! ## The calls -/

section Calls

variable {m m' : Mem} {w : World} {pID : pid_t} {tID : pthread_t} {mark : LastMark} {env : Env}

/-- What the log gained, read without addresses. -/
def Gained (m m' : Mem) (lines : List Printed) : Prop :=
  m'.log.map Printed.seen = m.log.map Printed.seen ++ lines

theorem Gained.nothing (h : m'.log = m.log) : Gained m m' [] := by
  rw [Gained, h, List.append_nil]

/-- Removing what is inactive and reporting the rest, as both builds do it. -/
theorem reportProcess_shows (h : Rep m w) (hc : Clocked m mark) (hreg : w.registered pID = true)
    {m₁ : Mem} {b : Bool} (hclose : PerfProcess.closeInactiveThreads m pID = .ok (m₁, b))
    (hreport : PerfProcess.reportData m₁ pID env = .ok m') :
    ∃ lines mark', w.Report mark pID env lines mark' ∧ Gained m m' lines ∧ Clocked m' mark' := by
  obtain ⟨m₂, b', hm₂, hE, -⟩ := closeInactiveThreads_spec h hreg
  obtain ⟨rfl, -⟩ := Prod.mk.inj (Except.ok.inj (hclose.symm.trans hm₂))
  obtain ⟨tIDs, lines, hlines, hlog, hc'⟩ := reportProcessData_reported hE.rep
    (PerfProcess.closeInactiveThreads_clocked hc hclose) hreport
  rw [PerfProcess.closeInactiveThreads_log hclose] at hlog
  refine ⟨lines, _, ?_, hlog, hc'⟩
  rw [World.Report, if_pos hreg]
  exact ⟨tIDs, hlines, rfl⟩

theorem InProc.reportProcess_shows (h : Rep m w) (hc : Clocked m mark)
    (hrun : InProc.RDKPerf_ReportProcess m pID env = .ok m') :
    ∃ lines mark', w.Report mark pID env lines mark' ∧ Gained m m' lines ∧ Clocked m' mark' := by
  unfold InProc.RDKPerf_ReportProcess at hrun
  cases hreg : w.registered pID with
  | false =>
    rw [Service.find_unregistered h hreg] at hrun
    obtain rfl := Except.ok.inj hrun
    refine ⟨[], mark, ?_, .nothing rfl, hc⟩
    rw [World.Report, if_neg (by rw [hreg]; simp)]
    exact ⟨rfl, rfl⟩
  | true =>
    rw [Service.find_registered h hreg] at hrun
    obtain ⟨_, -, hrun⟩ := bind_eq_ok.mp hrun
    obtain ⟨⟨m₁, b⟩, hclose, hreport⟩ := bind_eq_ok.mp hrun
    exact RdkPerf.reportProcess_shows h hc hreg hclose hreport

/-- A report of the tree that was found shows it. -/
theorem At.threadReport {t : TreePtr} {r : NodePtr} {ct : CallTree} (hA : At m w pID tID t r ct)
    (hc : Clocked m mark) (hrun : PerfTree.reportData m t 0 = .ok m') :
    ∃ lines, w.ThreadReport pID tID lines ∧ Gained m m' lines ∧ Clocked m' mark := by
  obtain ⟨lines, hlines, hlog⟩ := hA.tracks.reportData_reported hrun
  refine ⟨lines, ⟨fun ct' hct' => ?_, fun hnone => ?_⟩, hlog,
    hc.of_processMap (PerfTree.reportData_intervals hrun).2⟩
  · obtain rfl := Option.some.inj (hA.spec.symm.trans hct')
    exact hlines
  · rw [hA.spec] at hnone
    cases hnone

/-- Without a tree nothing is shown. -/
theorem World.threadReport_none (h : w.tree pID tID = none) : w.ThreadReport pID tID [] := by
  refine ⟨fun ct hct => ?_, fun _ => rfl⟩
  rw [h] at hct
  cases hct

theorem InProc.reportThread_shows (h : Rep m w) (hc : Clocked m mark)
    (hreg : w.registered pID = true)
    (hrun : InProc.RDKPerf_ReportThread m pID tID = .ok m') :
    ∃ lines, w.ThreadReport pID tID lines ∧ Gained m m' lines ∧ Clocked m' mark := by
  rw [InProc.RDKPerf_ReportThread, Service.find_registered h hreg] at hrun
  simp only [getTree_spec h hreg, ok_bind] at hrun
  cases ht : m.treePtr pID tID with
  | none =>
    rw [ht] at hrun
    obtain rfl := Except.ok.inj hrun
    exact ⟨[], World.threadReport_none (h.absent ht), .nothing rfl, hc⟩
  | some t =>
    obtain ⟨r, ct, hA⟩ := h.present ht
    rw [ht] at hrun
    exact hA.threadReport hc hrun

theorem InProc.closeThread_silent (hc : Clocked m mark)
    (hrun : InProc.RDKPerf_CloseThread m pID tID = .ok m') :
    m'.log = m.log ∧ Clocked m' mark := by
  unfold InProc.RDKPerf_CloseThread at hrun
  split at hrun
  · obtain rfl := Except.ok.inj hrun
    exact ⟨rfl, hc⟩
  · rw [map_eq_pure_bind] at hrun
    obtain ⟨⟨m₁, b⟩, hremove, hrun⟩ := bind_eq_ok.mp hrun
    obtain rfl := Except.ok.inj hrun
    exact PerfProcess.removeTree_silent hc hremove

/-- A destructor that finds its threshold exceeded prints it, and then its node's last calls. -/
theorem PerfRecord.destruct_shows {this : PerfRecord} {p : NodePtr}
    (hrun : this.destruct m env = .ok m') (hnode : this.nodeInTree = some p)
    (hex : this.exceeded (env.timeStamp - this.startTime) = true) :
    ∃ node, m'.nodes.get p = some node ∧ m'.log = m.log ++
      .threshold this.elementName this.thresholdInUS (env.timeStamp - this.startTime) node.stats ::
        (PerfNode.visits m'.nodes (m'.nodes.next + 1) p []).map deltaLine := by
  simp only [PerfRecord.destruct, hnode, hex, if_true] at hrun
  obtain ⟨m₁, hinc, hrun⟩ := bind_eq_ok.mp hrun
  obtain ⟨m₂, hclose, hrun⟩ := bind_eq_ok.mp hrun
  obtain ⟨node, hget, hrun⟩ := bind_eq_ok.mp hrun
  have hlog := ((PerfNode.incrementData_treesOnly hinc).trans
    (PerfNode.closeNode_treesOnly hclose)).log
  obtain ⟨hnodes, hlines⟩ := PerfNode.reportDelta_lines (τ := []) hrun
  refine ⟨node, ?_, ?_⟩
  · rw [hnodes]
    exact Mem.node_eq_ok.mp hget
  · rw [hlines, hnodes, ← hlog, List.append_cons]
    rfl

theorem PerfRecord.destruct_processMap {this : PerfRecord} (hrun : this.destruct m env = .ok m') :
    m'.processMap = m.processMap := by
  unfold PerfRecord.destruct at hrun
  cases hnode : this.nodeInTree with
  | none => simp [hnode] at hrun
  | some p =>
    simp only [hnode] at hrun
    obtain ⟨m₁, hinc, hrun⟩ := bind_eq_ok.mp hrun
    obtain ⟨m₂, hclose, hrun⟩ := bind_eq_ok.mp hrun
    have hmap := ((PerfNode.incrementData_treesOnly hinc).trans
      (PerfNode.closeNode_treesOnly hclose)).processMap
    split at hrun
    · obtain ⟨node, -, hrun⟩ := bind_eq_ok.mp hrun
      exact (PerfNode.reportDataNested_processMap hrun).trans hmap
    · obtain rfl := Except.ok.inj hrun
      exact hmap

end Calls

/-! ## Runs -/

section Runs

variable {pID : pid_t} {pre : List Op} {s s' : InProc} {mark : LastMark}

/-- A start prints nothing. -/
theorem start_prints (hs : InProc.run pID pre = .ok s) (hc : Clocked s.mem mark) {caller : Caller}
    {szName : CString} {nThresholdInUS : Option UInt32} {env : Env}
    (hstep : s.step (.start caller szName nThresholdInUS env) = .ok s') :
    Gained s.mem s'.mem [] ∧
      Clocked s'.mem (((Ledger.run pID pre).world pID).markEntered mark pID caller.tid env) := by
  have hS := InProc.run_sim hs
  have hrep := hS.rep
  obtain ⟨⟨m, record⟩, hmade, hstep⟩ := bind_eq_ok.mp hstep
  obtain rfl := Except.ok.inj hstep
  rw [construct_eq hrep, hS.pID] at hmade
  rw [hS.pID] at hrep
  obtain ⟨⟨m₁, pTree⟩, hget, hmade⟩ := bind_eq_ok.mp hmade
  have hc₁ := getTree_clocked hrep hc hget
  have hlog := Service.getTree_log hget
  cases pTree with
  | none =>
    obtain ⟨rfl, -⟩ := Prod.mk.inj (Except.ok.inj hmade)
    exact ⟨.nothing hlog, hc₁⟩
  | some t =>
    obtain ⟨⟨m₂, record₂, p⟩, hadd, hmade⟩ := bind_eq_ok.mp hmade
    obtain ⟨rfl, -⟩ := Prod.mk.inj (Except.ok.inj hmade)
    have htrees := PerfTree.addNodeRecord_treesOnly hadd
    exact ⟨.nothing (htrees.log.trans hlog), hc₁.of_processMap htrees.processMap⟩

/-- A stop prints what its trace calls for. -/
theorem stop_prints (hs : InProc.run pID pre = .ok s) {caller : Caller} {h : Handle} {env : Env}
    (hstep : s.step (.stop caller h env) = .ok s') :
    s'.mem.processMap = s.mem.processMap ∧ ∃ lines, Gained s.mem s'.mem lines ∧
      (Exceeds pre h env → (Ledger.run pID pre).StopShows pre h env lines) ∧
      (¬ Exceeds pre h env → lines = []) := by
  have hS := InProc.run_sim hs
  have hR := run_recorded hs
  obtain ⟨tID, calls, l, hl, ht⟩ := hS.step_legal hstep
  obtain ⟨record, p, t, r, hrec, hnode, hdestruct, hT, hp⟩ := InProc.stop_tracks hS hl ht hstep
  refine ⟨PerfRecord.destruct_processMap hdestruct, ?_⟩
  have hex : record.exceeded (env.timeStamp - record.startTime) = true ↔ Exceeds pre h env :=
    exceeded_iff hR hrec
  by_cases hexceeds : Exceeds pre h env
  · obtain ⟨node, hget, hlog⟩ := PerfRecord.destruct_shows hdestruct hnode (hex.mpr hexceeds)
    -- the record is the call's
    obtain ⟨record', p', hH⟩ := hS.attached ⟨l, hl, ht⟩
    obtain rfl := Option.some.inj (hrec.symm.trans hH.get)
    obtain ⟨_, -, hthr⟩ := hR.record hrec
    obtain ⟨n, hn, -, -, hdata⟩ := hT.live hp
    obtain rfl := Option.some.inj (hget.symm.trans hn)
    have hshown := hT.shown (b := true) hp
    refine ⟨_, ?_, fun _ => ⟨tID, l, calls, _, _, hl, ht, hdata, hshown, rfl⟩,
      fun hno => absurd hexceeds hno⟩
    have hdeltas : (PerfNode.visits s'.mem.nodes (s'.mem.nodes.next + 1) p []).map deltaLine =
        linesOf (reportLine true) (PerfNode.visits s'.mem.nodes (s'.mem.nodes.next + 1) p []) :=
      List.map_eq_flatMap
    rw [Gained, hlog, List.map_append, List.map_cons, hdeltas, hshown.map_seen, hH.name, hthr,
      hH.startTime]
    rfl
  · rcases PerfRecord.destruct_log hdestruct with ⟨hyes, -⟩ | ⟨-, hlog⟩
    · exact absurd (hex.mp hyes) hexceeds
    · exact ⟨[], .nothing hlog, fun hyes => absurd hyes hexceeds, fun _ => rfl⟩

/-- **One call** prints what the calls before it say. -/
theorem step_prints (hs : InProc.run pID pre = .ok s) (hc : Clocked s.mem mark) {op : Op}
    (hstep : s.step op = .ok s') : ∃ lines mark', Prints pID pre mark op lines mark' ∧
      Gained s.mem s'.mem lines ∧ Clocked s'.mem mark' := by
  have hS := InProc.run_sim hs
  have hrep := hS.rep
  rw [hS.pID] at hrep
  cases op with
  | start caller szName nThresholdInUS env =>
    obtain ⟨hlog, hc'⟩ := start_prints hs hc hstep
    exact ⟨_, _, ⟨rfl, rfl⟩, hlog, hc'⟩
  | stop caller h env =>
    obtain ⟨hmap, lines, hlog, hyes, hno⟩ := stop_prints hs hstep
    exact ⟨lines, mark, ⟨hyes, hno, rfl⟩, hlog, hc.of_processMap hmap⟩
  | setThreshold caller h nThresholdInUS =>
    simp only [InProc.step, InProc.setThreshhold] at hstep
    split at hstep
    · exact absurd hstep (by simp)
    · obtain rfl := Except.ok.inj hstep
      exact ⟨[], mark, ⟨rfl, rfl⟩, .nothing rfl, hc⟩
  | reportProcess caller p env =>
    obtain ⟨m, hm, hstep⟩ := bind_eq_ok.mp hstep
    obtain rfl := Except.ok.inj hstep
    exact InProc.reportProcess_shows hrep hc hm
  | reportThread caller tID =>
    have hreg : ((Ledger.run pID pre).world pID).registered pID = true := by
      simp only [Ledger.world, decide_true, Bool.true_and]
      exact hS.step_legal hstep
    obtain ⟨m, hm, hstep⟩ := bind_eq_ok.mp hstep
    obtain rfl := Except.ok.inj hstep
    rw [hS.pID] at hm
    obtain ⟨lines, hlines, hlog, hc'⟩ := InProc.reportThread_shows hrep hc hreg hm
    exact ⟨lines, mark, ⟨hlines, rfl⟩, hlog, hc'⟩
  | closeThread caller tID =>
    obtain ⟨m, hm, hstep⟩ := bind_eq_ok.mp hstep
    obtain rfl := Except.ok.inj hstep
    obtain ⟨hlog, hc'⟩ := InProc.closeThread_silent hc hm
    exact ⟨[], mark, ⟨rfl, rfl⟩, .nothing hlog, hc'⟩
  | closeProcess caller p =>
    obtain ⟨m, hm, hstep⟩ := bind_eq_ok.mp hstep
    obtain rfl := Except.ok.inj hstep
    obtain ⟨hlog, hc'⟩ := removeProcess_silent hc hm
    exact ⟨[], mark, ⟨rfl, rfl⟩, .nothing hlog, hc'⟩

/-- There is one thing to print. -/
theorem Prints.unique (hS : Sim pID s (Ledger.run pID pre)) {op : Op} {mark₁ mark₂ : LastMark}
    {lines lines' : List Printed} (h : Prints pID pre mark op lines mark₁)
    (h' : Prints pID pre mark op lines' mark₂) : lines = lines' ∧ mark₁ = mark₂ := by
  cases op with
  | start caller szName nThresholdInUS env =>
    exact ⟨h.1.trans h'.1.symm, h.2.trans h'.2.symm⟩
  | stop caller hPerf env =>
    obtain ⟨hyes, hno, rfl⟩ := h
    obtain ⟨hyes', hno', rfl⟩ := h'
    refine ⟨?_, rfl⟩
    by_cases hex : Exceeds pre hPerf env
    · obtain ⟨tID, l, calls, d, below, hl, ht, hd, hbelow, rfl⟩ := hyes hex
      obtain ⟨tID', l', calls', d', below', hl', ht', hd', hbelow', rfl⟩ := hyes' hex
      obtain ⟨rfl, rfl⟩ := hS.openCall_unique ⟨l, hl, ht⟩ ⟨l', hl', ht'⟩
      obtain rfl := Option.some.inj (hl.symm.trans hl')
      obtain rfl := Option.some.inj (hd.symm.trans hd')
      rw [hbelow.unique hbelow']
    · rw [hno hex, hno' hex]
  | setThreshold caller hPerf nThresholdInUS =>
    exact ⟨h.1.trans h'.1.symm, h.2.trans h'.2.symm⟩
  | reportProcess caller p env => exact World.Report.unique h h'
  | reportThread caller tID =>
    exact ⟨h.1.unique h'.1, h.2.trans h'.2.symm⟩
  | closeThread caller tID => exact ⟨h.1.trans h'.1.symm, h.2.trans h'.2.symm⟩
  | closeProcess caller p => exact ⟨h.1.trans h'.1.symm, h.2.trans h'.2.symm⟩

/-- The last call of a log. -/
theorem Logs.last {op : Op} {log : List Printed} (h : Logs pID (pre ++ [op]) mark log) :
    ∃ mark₀ log₀ lines, Logs pID pre mark₀ log₀ ∧ Prints pID pre mark₀ op lines mark ∧
      log = log₀ ++ lines := by
  generalize hops : pre ++ [op] = ops at h
  cases h with
  | nil => exact absurd hops (by simp)
  | call h hprints =>
    obtain ⟨rfl, hop⟩ := List.append_inj' hops rfl
    obtain rfl := List.singleton_inj.mp hop
    exact ⟨_, _, _, h, hprints, rfl⟩

/-- There is one log of a run. -/
theorem Logs.unique (hs : InProc.run pID pre = .ok s) {mark' : LastMark} {log log' : List Printed}
    (h : Logs pID pre mark log) (h' : Logs pID pre mark' log') : log = log' ∧ mark = mark' := by
  induction h generalizing s mark' log' with
  | nil =>
    generalize hops : ([] : List Op) = ops at h'
    cases h' with
    | nil => exact ⟨rfl, rfl⟩
    | call _ _ => exact absurd hops (by simp)
  | call h hprints ih =>
    obtain ⟨s₀, hs₀, -⟩ := foldlM_concat_ok.mp hs
    obtain ⟨mark₁, log₁, lines, h₁, hprints', rfl⟩ := h'.last
    obtain ⟨rfl, rfl⟩ := ih hs₀ h₁
    obtain ⟨rfl, rfl⟩ := hprints.unique (InProc.run_sim hs₀) hprints'
    exact ⟨rfl, rfl⟩

/-- What is printed goes with the clocks. -/
theorem InProc.run_logs (hs : InProc.run pID pre = .ok s) :
    ∃ mark, Clocked s.mem mark ∧ Logs pID pre mark (s.mem.log.map Printed.seen) := by
  induction pre using List.reverseRecOn generalizing s with
  | nil =>
    obtain rfl := Except.ok.inj hs
    refine ⟨.init, fun p proc hproc => ?_, .nil⟩
    rw [show (InProc.init pID).mem.processMap = ∅ from rfl,
      Std.ExtTreeMap.getElem?_empty] at hproc
    cases hproc
  | append_singleton pre op ih =>
    obtain ⟨s₀, hs₀, hstep⟩ := foldlM_concat_ok.mp hs
    obtain ⟨mark₀, hc₀, hlogs⟩ := ih hs₀
    obtain ⟨lines, mark, hprints, hgained, hc⟩ := step_prints hs₀ hc₀ hstep
    refine ⟨mark, hc, ?_⟩
    rw [show s.mem.log.map Printed.seen = s₀.mem.log.map Printed.seen ++ lines from hgained]
    exact .call hlogs hprints

/-- **The log of a run is the one its trace calls for**, line by line and in order, and the trace
    calls for no other. -/
theorem run_log (pID : pid_t) (ops : List Op) (s : InProc) (hs : InProc.run pID ops = .ok s) :
    ∃ mark, Logs pID ops mark (s.mem.log.map Printed.seen) ∧
      ∀ mark' log, Logs pID ops mark' log → log = s.mem.log.map Printed.seen := by
  obtain ⟨mark, -, hlogs⟩ := InProc.run_logs hs
  exact ⟨mark, hlogs, fun mark' log h => (h.unique hs hlogs).1⟩

end Runs

/-- A call of thread `A` takes longer than it may, and both threads are reported. -/
def loggedRun : List Op :=
  [.start threadA nameF (some 5) {}, .start threadA nameG none { timeStamp := 1 },
    .stop threadA 1 { timeStamp := 3 }, .stop threadA 0 { timeStamp := 10 },
    .start threadB nameG none {}, .reportProcess threadA 42 {}]

theorem loggedRun_log : ∃ s mark, InProc.run 42 loggedRun = .ok s ∧ s.mem.log.length = 12 ∧
    Logs 42 loggedRun mark (s.mem.log.map Printed.seen) := by
  obtain ⟨s, hs, hlength⟩ := ok_of_toOption_bind
    (show (InProc.run 42 loggedRun).toOption.bind (fun s => some s.mem.log.length) = some 12 by
      decide)
  obtain ⟨mark, hlogs, -⟩ := run_log 42 loggedRun s hs
  exact ⟨s, mark, hs, Option.some.inj hlength, hlogs⟩

end RdkPerf

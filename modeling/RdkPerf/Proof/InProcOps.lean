import RdkPerf.Model.Api
import RdkPerf.Proof.ServiceSim

/-!
# What a call of the in-process build does to the trees

Each call of the interface on a memory that represents `w`: it has an outcome, and that represents
the world the corresponding operation gives. The constructor of a record also says which node it
holds, and the destructor needs to know that it still holds it.
-/

namespace RdkPerf

open Lib

/-! ## The control calls -/

section Control

variable {m : Mem} {w : World} {pID : pid_t} {tID : pthread_t}

theorem World.reportProcess_of_unregistered (h : Rep m w) (hreg : w.registered pID = false) :
    w.reportProcess pID = w := by
  refine World.ext rfl (funext fun p => funext fun s => ?_)
  rw [World.reportProcess_tree]
  split
  · next hp =>
    rw [hp, h.tree_none_of_unregistered hreg]
    rfl
  · rfl

theorem reportProcess_spec (h : Rep m w) (pID : pid_t) (env : Env) :
    ∃ m', InProc.RDKPerf_ReportProcess m pID env = .ok m' ∧ Evolve m w m' (w.reportProcess pID) := by
  rw [InProc.RDKPerf_ReportProcess]
  cases hreg : w.registered pID with
  | false =>
    rw [Service.find_unregistered h hreg, World.reportProcess_of_unregistered h hreg]
    exact ⟨m, rfl, .refl h⟩
  | true =>
    obtain ⟨m₁, b, hm₁, hE₁, -⟩ := closeInactiveThreads_spec h hreg
    obtain ⟨m₂, size, hm₂, hE₂, -⟩ := reportProcessData_spec hE₁.rep hreg env
    rw [Service.find_registered h hreg]
    simp only [showTrees_spec h hreg, hm₁, hm₂, ok_bind]
    exact ⟨m₂, rfl, hE₁.trans hE₂ fun _ hne => World.tree_of_reportTrees hne⟩

theorem reportThread_spec (h : Rep m w) (hreg : w.registered pID = true) (tID : pthread_t) :
    ∃ m', InProc.RDKPerf_ReportThread m pID tID = .ok m' ∧
      Evolve m w m' (w.set pID tID ((w.tree pID tID).map (·.report))) := by
  rw [InProc.RDKPerf_ReportThread, Service.find_registered h hreg]
  simp only [getTree_spec h hreg, ok_bind]
  cases ht : m.treePtr pID tID with
  | none =>
    rw [h.absent ht, Option.map_none, World.set_none_of_none (h.absent ht)]
    exact ⟨m, rfl, .refl h⟩
  | some t =>
    obtain ⟨r, ct, hA⟩ := h.present ht
    obtain ⟨m', hm', hS, -⟩ := reportData_spec hA.tracks 0
    rw [hA.spec]
    exact ⟨m', hm', h.step hA hS rfl⟩

theorem closeThread_spec (h : Rep m w) (pID : pid_t) (tID : pthread_t) :
    ∃ m', InProc.RDKPerf_CloseThread m pID tID = .ok m' ∧ Evolve m w m' (w.set pID tID none) := by
  rw [InProc.RDKPerf_CloseThread]
  cases hreg : w.registered pID with
  | false =>
    rw [Service.find_unregistered h hreg,
      World.set_none_of_none (h.tree_none_of_unregistered hreg)]
    exact ⟨m, rfl, .refl h⟩
  | true =>
    obtain ⟨m', hm', hE⟩ := removeTree_spec h hreg tID
    rw [Service.find_registered h hreg]
    exact ⟨m', by simp only [hm', map_ok], hE⟩

end Control

/-! ## Start -/

section Start

variable {m : Mem} {w : World} {pID : pid_t} {caller : Caller} {env : Env} {elementName : Name}

/-- The constructor finds or creates the tree the way the service does. -/
theorem construct_eq (h : Rep m w) : PerfRecord.construct m pID elementName caller env = (do
    match ← Service.getTree m pID caller.tid true env with
    | (m, none) => pure (m, ⟨elementName, env.timeStamp, caller.tid, none, -1⟩)
    | (m, some pTree) =>
      let (m, this, _) ← PerfTree.addNodeRecord m pTree
        ⟨elementName, env.timeStamp, caller.tid, none, -1⟩ caller
      pure (m, this)) := by
  rw [PerfRecord.construct, Service.getTree, findProcess_eq h]
  cases w.registered pID with
  | true =>
    simp only [if_true]
    cases PerfProcess.getTree m pID caller.tid with
    | error e => rfl
    | ok o =>
      cases o with
      | some t => rfl
      | none =>
        simp only [ok_bind]
        cases PerfProcess.newTree m pID caller.tid env with
        | error e => rfl
        | ok mt => obtain ⟨m', _ | t⟩ := mt <;> rfl
  | false =>
    simp only [Bool.false_eq_true, if_false, if_true]
    cases PerfProcess.getTree (RDKPerf_InsertProcess m pID) pID caller.tid with
    | error e => rfl
    | ok o =>
      cases o with
      | some t => rfl
      | none =>
        simp only [ok_bind]
        cases PerfProcess.newTree (RDKPerf_InsertProcess m pID) pID caller.tid env with
        | error e => rfl
        | ok mt => obtain ⟨m', _ | t⟩ := mt <;> rfl

/-- **`PerfRecord::PerfRecord`** enters a call: its path is open, and the record holds its node. -/
theorem construct_spec (h : Rep m w) (pID : pid_t) {elementName : Name} (hname : elementName ≠ [])
    (caller : Caller) (env : Env) : ∃ m' p ct, w.treeOrInit pID caller.tid (.ok caller.threadName.bytes) = .ok ct ∧
      PerfRecord.construct m pID elementName caller env =
        .ok (m', ⟨elementName, env.timeStamp, caller.tid, some p, -1⟩) ∧
      Evolve m w m' ((w.register pID).set pID caller.tid (some (ct.enter elementName))) ∧
      NodeIs m' ((w.register pID).set pID caller.tid (some (ct.enter elementName))) pID caller.tid
        (elementName :: ct.active) p := by
  obtain ⟨m₁, t, hm₁, hrest⟩ := getTree_create h pID caller.tid env
  have hthis := hrest (namesTree_record caller)
  cases hct : w.treeOrInit pID caller.tid (.ok caller.threadName.bytes) with
  | error e =>
    unfold World.treeOrInit at hct
    cases hw : w.tree pID caller.tid <;> rw [hw] at hct <;> exact absurd hct (by simp)
  | ok ct =>
    rw [hct] at hthis
    obtain ⟨m₂, r, pTop, htop, hE₂, hent⟩ := hthis
    obtain ⟨m₃, p, hpush, hE₃, hA₃, hw⟩ := hent.push hE₂.rep hname
    rw [World.set_set] at hE₃ hA₃
    refine ⟨m₃, p, ct, rfl, ?_, hE₂.trans hE₃ fun {q u} hne _ => ?_, t, r, _, hA₃, hw⟩
    · obtain ⟨⟨m', p'⟩, hadd, hout⟩ := bind_eq_ok.mp hpush
      obtain ⟨hm₃, rfl⟩ := Prod.mk.inj (Except.ok.inj hout)
      have hadd' : PerfNode.addChild m₂ pTop elementName (PerfNode.ofRecord
          ⟨elementName, env.timeStamp, caller.tid, none, -1⟩) = .ok (m', p') := hadd
      rw [construct_eq h, hm₁, ok_bind]
      simp only [PerfTree.addNodeRecord, htop, PerfNode.addChildRecord, hadd', ok_bind,
        pure_eq_ok, hm₃]
    · rw [World.set_tree]
      split
      · simp
      · exact hne

/-- Without a name it does not come to that: the constructor of the node fails. -/
theorem construct_unnamed (h : Rep m w) :
    PerfRecord.construct m pID [] caller env = .error .clearedString := by
  obtain ⟨m₁, t, hm₁, hrest⟩ := getTree_create h pID caller.tid env
  have hthis := hrest (namesTree_record caller)
  cases hct : w.treeOrInit pID caller.tid (.ok caller.threadName.bytes) with
  | error e =>
    unfold World.treeOrInit at hct
    cases hw : w.tree pID caller.tid <;> rw [hw] at hct <;> exact absurd hct (by simp)
  | ok ct =>
    rw [hct] at hthis
    obtain ⟨m₂, r, pTop, htop, -, hent⟩ := hthis
    have hadd : PerfNode.addChild m₂ pTop [] (PerfNode.construct []) = .error .clearedString := by
      have hpush := hent.push_unnamed
      cases hadd : PerfNode.addChild m₂ pTop [] (PerfNode.construct []) with
      | error e =>
        rw [pushed, hadd] at hpush
        exact hpush
      | ok mp =>
        rw [pushed, hadd] at hpush
        exact absurd hpush (by simp)
    rw [construct_eq h, hm₁, ok_bind]
    simp only [PerfTree.addNodeRecord, htop, PerfNode.addChildRecord, PerfNode.ofRecord, hadd,
      ok_bind, error_bind]

end Start

/-! ## Stop -/

/-- **`~PerfRecord`** on a record that holds a node: the call at the node's path ends. A threshold
    that was exceeded prints, and changes nothing. -/
theorem destruct_spec {m : Mem} {w : World} {pID : pid_t} {tID : pthread_t} {π : Path}
    {p : NodePtr} {record : PerfRecord} {ct : CallTree} (h : Rep m w)
    (hp : NodeIs m w pID tID π p) (hnode : record.nodeInTree = some p)
    (hct : w.tree pID tID = some ct) (env : Env) :
    ∃ m', record.destruct m env = .ok m' ∧
      Evolve m w m' (w.set pID tID (some (ct.stop π (env.timeStamp - record.startTime)))) := by
  obtain ⟨t, r, ct₀, hA, hπ⟩ := hp
  obtain rfl := Option.some.inj (hA.spec.symm.trans hct)
  obtain ⟨m₂, hrun, hS⟩ := stop_spec hA.tracks hπ (env.timeStamp - record.startTime)
  obtain ⟨m₁, hm₁, hm₂⟩ := bind_eq_ok.mp hrun
  have hE := h.step hA hS (by simp)
  have hA₂ : At m₂ (w.set pID tID (some (ct₀.stop π (env.timeStamp - record.startTime)))) pID tID
      t r (ct₀.stop π (env.timeStamp - record.startTime)) :=
    (hE.stays hA (by rw [World.set_tree, if_pos ⟨rfl, rfl⟩])).1
  simp only [PerfRecord.destruct, hnode, hm₁, hm₂, ok_bind]
  split
  · obtain ⟨n, hn, -⟩ := hA₂.tracks.live (hS.walks hπ)
    have hE₃ := Evolve.print hE.rep
      (.threshold record.elementName record.thresholdInUS (env.timeStamp - record.startTime) n.stats)
    have hT₃ : Tracks (m₂.print (.threshold record.elementName record.thresholdInUS
        (env.timeStamp - record.startTime) n.stats)) t r _ := hA₂.tracks.frame rfl fun _ _ => rfl
    obtain ⟨m₄, hm₄, hnodes, htrees, hmap, -⟩ := reportDelta_spec hT₃ (hS.walks hπ) 0
    refine ⟨m₄, ?_, (hE.trans hE₃ fun _ hne => hne).trans (.of_same hE₃.rep hnodes htrees ?_ rfl ?_ ?_)
      fun _ hne => hne⟩
    · rw [Mem.node_eq_ok.mpr hn, ok_bind]
      exact hm₄
    · exact fun p s => Mem.treePtr_congr hmap
    · intro p
      rw [hmap]
      exact hE₃.rep.registered p
    · intro p proc hproc
      rw [hmap] at hproc
      exact hE₃.rep.idProcess hproc
  · exact ⟨m₂, rfl, hE⟩

end RdkPerf

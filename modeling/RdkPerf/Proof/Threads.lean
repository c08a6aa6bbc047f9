import RdkPerf.Model.Threads
import RdkPerf.Proof.Control

/-!
# The calls of several threads

A call that has the lock is one step for everybody else: whatever the threads do in between, the
process is where the calls made one after the other would have brought it, each thread's in the
order in which it made them.
-/

namespace RdkPerf

open Lib

variable {α : Type} {pID : pid_t} {actions : List (Pool.Action pthread_t Op)} {p : Threads}

namespace Work

/-! ## With nobody in the way -/

@[simp] theorem run_onMem (f : Mem → Except Fault (α × Mem)) (s : InProc) :
    (onMem f).run s = (fun am => (am.1, { s with mem := am.2 })) <$> f s.mem := by
  rw [onMem, Code.run_atomic]
  cases f s.mem <;> rfl

@[simp] theorem run_update (f : Mem → Except Fault Mem) (s : InProc) :
    (update f).run s = (fun m => ((), { s with mem := m })) <$> f s.mem := by
  rw [update, run_onMem]
  cases f s.mem <;> rfl

@[simp] theorem run_look (f : Mem → Except Fault α) (s : InProc) :
    (look f).run s = (fun a => (a, s)) <$> f s.mem := by
  rw [look, run_onMem]
  cases f s.mem <;> rfl

@[simp] theorem run_getpid (s : InProc) : getpid.run s = .ok (s.pID, s) := rfl

@[simp] theorem run_findProcess (p : pid_t) (s : InProc) :
    (RDKPerf_FindProcess p).run s = .ok (RdkPerf.RDKPerf_FindProcess s.mem p, s) := by
  simp [RDKPerf_FindProcess]

@[simp] theorem run_insertProcess (p : pid_t) (s : InProc) :
    (RDKPerf_InsertProcess p).run s =
      .ok ((), { s with mem := RdkPerf.RDKPerf_InsertProcess s.mem p }) := by
  simp [RDKPerf_InsertProcess]

theorem run_ownProcess (p : pid_t) (s : InProc) :
    (ownProcess p).run s =
      match RdkPerf.RDKPerf_FindProcess s.mem p with
      | some pProcess => .ok (pProcess, s)
      | none => .ok (p, { s with mem := RdkPerf.RDKPerf_InsertProcess s.mem p }) := by
  rw [ownProcess, Code.run_bind, run_findProcess, ok_bind]
  cases RdkPerf.RDKPerf_FindProcess s.mem p with
  | none => simp
  | some pProcess => rfl

theorem run_ownTree (pProcess : ProcPtr) (tID : pthread_t) (env : Env) (s : InProc) :
    (ownTree pProcess tID env).run s =
      PerfProcess.getTree s.mem pProcess tID >>= fun pTree =>
        match pTree with
        | some pTree => pure (some pTree, s)
        | none => PerfProcess.newTree s.mem pProcess tID env >>= fun mt =>
          pure (mt.2, { s with mem := mt.1 }) := by
  rw [ownTree, Code.run_bind, run_look]
  cases PerfProcess.getTree s.mem pProcess tID with
  | error e => rfl
  | ok pTree =>
    cases pTree with
    | some pTree => rfl
    | none =>
      simp only [map_ok, ok_bind, run_onMem]
      cases PerfProcess.newTree s.mem pProcess tID env <;> rfl

/-- `addRecord`, on the process map alone. -/
def added (m : Mem) (pProcess : ProcPtr) (this : PerfRecord) (caller : Caller) (env : Env) :
    Except Fault (Mem × PerfRecord) := do
  let (m, pTree) ← match ← PerfProcess.getTree m pProcess this.idThread with
    | some pTree => pure (m, some pTree)
    | none => PerfProcess.newTree m pProcess this.idThread env
  match pTree with
  | none => pure (m, this)
  | some pTree =>
    let (m, this, _) ← PerfTree.addNodeRecord m pTree this caller
    pure (m, this)

theorem run_addRecord (pProcess : ProcPtr) (this : PerfRecord) (caller : Caller) (env : Env)
    (s : InProc) :
    (addRecord pProcess this caller env).run s =
      added s.mem pProcess this caller env >>= fun mr => pure (mr.2, { s with mem := mr.1 }) := by
  have hnode : ∀ (m : Mem) (pTree : TreePtr),
      (onMem fun m => do
        let (m, this, _) ← PerfTree.addNodeRecord m pTree this caller
        pure (this, m)).run { s with mem := m } =
      (do
        let (m, this, _) ← PerfTree.addNodeRecord m pTree this caller
        pure (m, this)) >>= fun mr : Mem × PerfRecord => pure (mr.2, { s with mem := mr.1 }) := by
    intro m pTree
    rw [run_onMem]
    cases PerfTree.addNodeRecord m pTree this caller <;> rfl
  rw [addRecord, Code.run_bind, run_ownTree, added]
  cases PerfProcess.getTree s.mem pProcess this.idThread with
  | error e => rfl
  | ok pTree =>
    cases pTree with
    | some pTree => exact hnode s.mem pTree
    | none =>
      simp only [ok_bind]
      cases PerfProcess.newTree s.mem pProcess this.idThread env with
      | error e => rfl
      | ok mt =>
        obtain ⟨m, pTree⟩ := mt
        cases pTree with
        | none => rfl
        | some pTree => exact hnode m pTree

theorem run_constructRecord (elementName : Name) (caller : Caller) (env : Env) (s : InProc) :
    (constructRecord elementName caller env).run s =
      PerfRecord.construct s.mem s.pID elementName caller env >>= fun mr =>
        pure (mr.2, { s with mem := mr.1 }) := by
  rw [constructRecord, Code.run_bind, run_getpid, ok_bind, Code.run_locked, Code.run_bind,
    run_ownProcess, PerfRecord.construct]
  cases RdkPerf.RDKPerf_FindProcess s.mem s.pID with
  | none => exact run_addRecord _ _ _ _ _
  | some pProcess => exact run_addRecord _ _ _ _ _

theorem run_destructRecord (this : PerfRecord) (env : Env) (s : InProc) :
    (destructRecord this env).run s =
      (fun m => ((), { s with mem := m })) <$> this.destruct s.mem env := by
  rw [destructRecord, Code.run_locked, PerfRecord.destruct]
  cases this.nodeInTree with
  | none => rfl
  | some pNode =>
    simp only [Code.run_bind, run_update]
    cases PerfNode.incrementData s.mem pNode (env.timeStamp - this.startTime) 0 0 with
    | error e => rfl
    | ok m =>
      simp only [map_ok, ok_bind]
      cases PerfNode.closeNode m pNode with
      | error e => rfl
      | ok m' =>
        simp only [map_ok, ok_bind]
        split
        · rw [Code.run_bind, run_look]
          cases m'.node pNode with
          | error e => rfl
          | ok node => simp only [map_ok, ok_bind, run_update]
        · rfl

end Work

open Work

theorem Op.work_run (op : Op) (s : InProc) :
    op.work.run s = (fun s' => ((), s')) <$> s.step op := by
  cases op with
  | start caller szName nThresholdInUS env =>
    cases nThresholdInUS with
    | none =>
      rw [InProc.step, InProc.construct, work, RDKPerfStart, Code.run_locked, Code.run_bind,
        run_constructRecord]
      cases PerfRecord.construct s.mem s.pID szName.bytes caller env <;> rfl
    | some nUS =>
      rw [InProc.step, InProc.construct, work, Work.construct, Code.run_bind,
        run_constructRecord]
      cases PerfRecord.construct s.mem s.pID szName.bytes caller env <;> rfl
  | stop caller hPerf env =>
    rw [InProc.step, InProc.destruct, work, RDKPerfStop, Code.run_locked, Code.run_bind, recordOf,
      Code.run_atomic]
    cases s.records.get hPerf with
    | none => rfl
    | some record =>
      simp only [pure_eq_ok, ok_bind, Code.run_bind, run_destructRecord]
      cases record.destruct s.mem env <;> rfl
  | setThreshold caller hPerf nThresholdInUS =>
    rw [InProc.step, work, RDKPerfSetThreshold, Code.run_atomic]
    cases s.setThreshhold hPerf nThresholdInUS <;> rfl
  | reportProcess caller p env =>
    rw [InProc.step, InProc.onMem, work, RDKPerf_ReportProcess, Code.run_locked, Code.run_bind,
      run_findProcess, InProc.RDKPerf_ReportProcess]
    cases RdkPerf.RDKPerf_FindProcess s.mem p with
    | none => rfl
    | some pProcess =>
      simp only [ok_bind, Code.run_bind, run_look, run_update]
      cases PerfProcess.showTrees s.mem pProcess with
      | error e => rfl
      | ok u =>
        simp only [ok_bind, map_ok]
        cases PerfProcess.closeInactiveThreads s.mem pProcess with
        | error e => rfl
        | ok mb => 
          simp only [ok_bind, map_ok]
          cases PerfProcess.reportData mb.1 pProcess env <;> rfl
  | reportThread caller tID =>
    rw [InProc.step, InProc.onMem, work, RDKPerf_ReportThread, Code.run_locked, Code.run_bind,
      run_getpid, ok_bind, Code.run_bind, run_findProcess, ok_bind, InProc.RDKPerf_ReportThread]
    cases RdkPerf.RDKPerf_FindProcess s.mem s.pID with
    | none => rfl
    | some pProcess =>
      simp only [Code.run_bind, run_look]
      cases PerfProcess.getTree s.mem pProcess tID with
      | error e => rfl
      | ok pTree =>
        cases pTree with
        | none => rfl
        | some pTree => 
          simp only [ok_bind, map_ok, run_update]
          cases PerfTree.reportData s.mem pTree 0 <;> rfl
  | closeThread caller tID =>
    rw [InProc.step, InProc.onMem, work, RDKPerf_CloseThread, Code.run_locked, Code.run_bind,
      run_getpid, ok_bind, Code.run_bind, run_findProcess, ok_bind, InProc.RDKPerf_CloseThread]
    cases RdkPerf.RDKPerf_FindProcess s.mem s.pID with
    | none => rfl
    | some pProcess =>
      simp only [run_update]
      cases PerfProcess.removeTree s.mem pProcess tID <;> rfl
  | closeProcess caller p =>
    rw [InProc.step, InProc.onMem, work, RDKPerf_CloseProcess, Code.run_locked,
      Work.RDKPerf_RemoveProcess, Code.run_locked, run_update, InProc.RDKPerf_CloseProcess]
    cases RdkPerf.RDKPerf_RemoveProcess s.mem p <;> rfl

/-! ## With the lock -/

namespace Work

theorem balanced_onMem (f : Mem → Except Fault (α × Mem)) : (onMem f).Balanced :=
  Code.balanced_atomic _

theorem balanced_update (f : Mem → Except Fault Mem) : (update f).Balanced := balanced_onMem _

theorem balanced_look (f : Mem → Except Fault α) : (look f).Balanced := balanced_onMem _

theorem balanced_findProcess (p : pid_t) : (RDKPerf_FindProcess p).Balanced :=
  Code.balanced_locked (balanced_look _)

theorem balanced_ownProcess (p : pid_t) : (ownProcess p).Balanced := by
  apply (balanced_findProcess p).bind
  intro pProcess
  cases pProcess with
  | some pProcess => exact Code.balanced_pure _
  | none => exact (Code.balanced_locked (balanced_update _)).bind fun _ => Code.balanced_pure _

theorem balanced_ownTree (pProcess : ProcPtr) (tID : pthread_t) (env : Env) :
    (ownTree pProcess tID env).Balanced := by
  apply (balanced_look _).bind
  intro pTree
  cases pTree with
  | some pTree => exact Code.balanced_pure _
  | none => exact balanced_onMem _

theorem balanced_addRecord (pProcess : ProcPtr) (this : PerfRecord) (caller : Caller) (env : Env) :
    (addRecord pProcess this caller env).Balanced := by
  apply (balanced_ownTree _ _ _).bind
  intro pTree
  cases pTree with
  | none => exact Code.balanced_pure _
  | some pTree => exact balanced_onMem _

theorem balanced_constructRecord (elementName : Name) (caller : Caller) (env : Env) :
    (constructRecord elementName caller env).Balanced := by
  apply (Code.balanced_atomic _).bind
  intro pID
  apply Code.balanced_locked
  exact (balanced_ownProcess pID).bind fun pProcess => balanced_addRecord _ _ _ _

theorem balanced_destructRecord (this : PerfRecord) (env : Env) :
    (destructRecord this env).Balanced := by
  apply Code.balanced_locked
  cases this.nodeInTree with
  | none => exact Code.balanced_atomic _
  | some pNode =>
    apply (balanced_update _).bind
    intro _
    apply (balanced_update _).bind
    intro _
    show Code.Balanced (if _ then _ else _)
    split
    · exact (balanced_look _).bind fun _ => balanced_update _
    · exact Code.balanced_pure _

end Work

/-- A call that takes the lock has it until it is over. -/
theorem Op.work_isSection {op : Op} (hop : op.locks) : op.work.IsSection := by
  cases op with
  | start caller szName nThresholdInUS env =>
    cases nThresholdInUS with
    | none =>
      apply Code.Balanced.isSection
      exact (balanced_constructRecord _ _ _).bind fun _ => Code.balanced_atomic _
    | some nUS => cases hop
  | stop caller hPerf env =>
    apply Code.Balanced.isSection
    apply (Code.balanced_atomic _).bind
    intro record
    exact (balanced_destructRecord _ _).bind fun _ => Code.balanced_atomic _
  | setThreshold caller hPerf nThresholdInUS => cases hop
  | reportProcess caller p env =>
    apply Code.Balanced.isSection
    apply (balanced_findProcess p).bind
    intro pProcess
    cases pProcess with
    | none => exact Code.balanced_pure _
    | some pProcess =>
      apply (balanced_look _).bind
      intro _
      exact (balanced_update _).bind fun _ => balanced_update _
  | reportThread caller tID =>
    apply Code.Balanced.isSection
    apply (Code.balanced_atomic _).bind
    intro pID
    apply (balanced_findProcess pID).bind
    intro pProcess
    cases pProcess with
    | none => exact Code.balanced_atomic _
    | some pProcess =>
      apply (balanced_look _).bind
      intro pTree
      cases pTree with
      | none => exact Code.balanced_pure _
      | some pTree => exact balanced_update _
  | closeThread caller tID =>
    apply Code.Balanced.isSection
    apply (Code.balanced_atomic _).bind
    intro pID
    apply (balanced_findProcess pID).bind
    intro pProcess
    cases pProcess with
    | none => exact Code.balanced_pure _
    | some pProcess => exact balanced_update _
  | closeProcess caller p =>
    exact Code.Balanced.isSection (Code.balanced_locked (balanced_update _))

/-! ## Any number of threads -/

namespace Threads

theorem serially_eq (pID : pid_t) (ops : List Op) :
    Pool.serially Op.work (InProc.init pID) ops = InProc.run pID ops := by
  have hstep : (fun (s : InProc) (op : Op) => Prod.snd <$> op.work.run s) = InProc.step := by
    funext s op
    rw [Op.work_run]
    cases s.step op <;> rfl
  rw [Pool.serially, InProc.run, hstep]

theorem serial (hops : ∀ t op, .call t op ∈ actions → op.locks)
    (hrun : Threads.run pID actions = some p) :
    p.Serial Op.work (InProc.init pID) actions :=
  .run (fun t op hmem => Op.work_isSection (hops t op hmem)) hrun

/-- So what holds of every state of the in-process build holds of the threads' whenever nobody has
    the lock. -/
theorem reachable (hops : ∀ t op, .call t op ∈ actions → op.locks)
    (hrun : Threads.run pID actions = some p) (hfree : p.owner = none) :
    Reachable p.shared.mem := by
  have hserial := (serial hops hrun).free hfree
  rw [serially_eq] at hserial
  exact Or.inl ⟨pID, _, _, hserial, rfl⟩

end Threads

/-- **The threads of a process see each other's calls whole.** At any moment the calls of each
    thread have taken the lock in the order in which it made them, all but one it may be about to
    take it for. While nobody has the lock, the process is where these calls bring it one after the
    other, in the order in which they took the lock; while a thread has it, what is left of its
    call does to the process what the whole call does to the state the calls before it left. -/
theorem threads_run (hops : ∀ t op, .call t op ∈ actions → op.locks)
    (hrun : Threads.run pID actions = some p) :
    (∀ t, ∃ waiting, Pool.callsOf t actions = Pool.enteredBy t p.order ++ waiting ∧
      (waiting = [] ∨ ∃ op, waiting = [op] ∧ p.busy t = some (op, op.work))) ∧
    (p.owner = none → InProc.run pID (p.order.map Prod.snd) = .ok p.shared) ∧
    ∀ t n, p.owner = some (t, n) → ∃ before op left s, p.order = before ++ [(t, op)] ∧
      p.busy t = some (op, left) ∧ InProc.run pID (before.map Prod.snd) = .ok s ∧
      left.run p.shared = (fun s' => ((), s')) <$> s.step op := by
  have hS := Threads.serial hops hrun
  refine ⟨fun t => ?_, fun hfree => ?_, fun t n howner => ?_⟩
  · rcases hS.ordered t with ⟨op, hwaits, hcalls⟩ | ⟨-, hcalls⟩
    · exact ⟨[op], hcalls, Or.inr ⟨op, rfl, hwaits.1⟩⟩
    · exact ⟨[], hcalls.trans (List.append_nil _).symm, Or.inl rfl⟩
  · rw [← Threads.serially_eq]
    exact hS.free hfree
  · obtain ⟨-, before, op, left, s, horder, hbusy, -, hbefore, hleft⟩ := hS.inside howner
    rw [Threads.serially_eq] at hbefore
    exact ⟨before, op, left, s, horder, hbusy, hbefore, hleft.symm.trans (op.work_run s)⟩

/-- Two threads call at once. One has its entry made when the other begins with its own, and calls
    again to leave it. -/
def threadsRun : List (Pool.Action pthread_t Op) :=
  [.call 1 (.start threadA nameF none {}), .call 2 (.start threadB nameG none {})] ++
    List.replicate 15 (.step 1) ++ [.step 2, .step 1, .step 2, .step 2] ++
    [.call 1 (.stop threadA 0 {})]

theorem threadsRun_locks (t : pthread_t) (op : Op) (h : .call t op ∈ threadsRun) : op.locks := by
  simp only [threadsRun, List.mem_append, List.mem_cons, List.mem_replicate, List.not_mem_nil,
    Pool.Action.call.injEq, reduceCtorEq, and_false, or_false] at h
  rcases h with (⟨-, rfl⟩ | ⟨-, rfl⟩) | ⟨-, rfl⟩ <;> rfl

theorem threadsRun_run : ∃ p, Threads.run 42 threadsRun = some p ∧ p.owner = some (2, 2) ∧
    (∀ t, ∃ waiting, Pool.callsOf t threadsRun = Pool.enteredBy t p.order ++ waiting ∧
      (waiting = [] ∨ ∃ op, waiting = [op] ∧ p.busy t = some (op, op.work))) ∧
    (p.owner = none → InProc.run 42 (p.order.map Prod.snd) = .ok p.shared) ∧
    ∀ t n, p.owner = some (t, n) → ∃ before op left s, p.order = before ++ [(t, op)] ∧
      p.busy t = some (op, left) ∧ InProc.run 42 (before.map Prod.snd) = .ok s ∧
      left.run p.shared = (fun s' => ((), s')) <$> s.step op := by
  obtain ⟨p, hrun, howner⟩ := Option.map_eq_some_iff.mp
    (show (Threads.run 42 threadsRun).map (·.owner) = some (some (2, 2)) by decide)
  exact ⟨p, hrun, howner, threads_run threadsRun_locks hrun⟩

/-- **No call is stuck**, whatever the other threads are in the middle of: from every state the
    threads get to, steps of theirs end the call, with no new call made. A run can only come to an
    end before that on a fault the calls would meet one after the other, too. -/
theorem threads_return (hops : ∀ t op, .call t op ∈ actions → op.locks)
    (hrun : Threads.run pID actions = some p) {t : pthread_t} {op : Op} {left : Work Unit}
    (hbusy : p.busy t = some (op, left)) :
    (∃ more p', (∀ u op', .call u op' ∉ more) ∧ Threads.run pID (actions ++ more) = some p' ∧
      p'.busy t = none) ∨
    ∃ ops e, (ops = p.order.map Prod.snd ∨ ops = p.order.map Prod.snd ++ [op]) ∧
      InProc.run pID ops = .error e := by
  rcases (Threads.serial hops hrun).returns hbusy with
    ⟨more, p', hmore, hrun', hidle⟩ | ⟨ops, e, hops', he⟩
  · refine Or.inl ⟨more, p', hmore, ?_, hidle⟩
    rw [Threads.run, Pool.run, List.foldlM_append]
    exact Option.bind_eq_some_iff.mpr ⟨p, hrun, hrun'⟩
  · rw [Threads.serially_eq] at he
    exact Or.inr ⟨ops, e, hops', he⟩

theorem threadsRun_return : ∃ p op left, Threads.run 42 threadsRun = some p ∧
    p.busy 1 = some (op, left) ∧
    ((∃ more p', (∀ u op', .call u op' ∉ more) ∧ Threads.run 42 (threadsRun ++ more) = some p' ∧
      p'.busy 1 = none) ∨
    ∃ ops e, (ops = p.order.map Prod.snd ∨ ops = p.order.map Prod.snd ++ [op]) ∧
      InProc.run 42 ops = .error e) := by
  obtain ⟨p, hrun, hsome⟩ := Option.map_eq_some_iff.mp
    (show (Threads.run 42 threadsRun).map (fun p => (p.busy 1).isSome) = some true by decide)
  obtain ⟨⟨op, left⟩, hbusy⟩ := Option.isSome_iff_exists.mp hsome
  exact ⟨p, op, left, hrun, hbusy, threads_return threadsRun_locks hrun hbusy⟩

end RdkPerf

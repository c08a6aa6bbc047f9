import RdkPerf.Proof.BuildsAgree
import RdkPerf.Proof.Printing

/-!
# The control calls in the two builds

On the ids it is given, a handler of the service is the in-process function of the same name
(`Service.handleCloseThread_eq` and its like). But the remote build sends the ids of the caller,
and not the ones the call names: so the two builds agree exactly when the call names its own
thread or process, or when neither target is there. Before its first start the remote build has no
queue and sends nothing, and then it agrees where what the call names is not there
(`control_agrees_iff`).
-/

namespace RdkPerf

open Lib

variable {m m' : Mem} {w w' : World} {pID p : pid_t} {tID : pthread_t}

/-! ## A handler is the function of the same name -/

namespace Service

theorem handleReportProcess_eq (m : Mem) (p : pid_t) (env : Env) :
    Prod.fst <$> handleReportProcess m ⟨p⟩ env = InProc.RDKPerf_ReportProcess m p env := by
  unfold handleReportProcess InProc.RDKPerf_ReportProcess
  cases RDKPerf_FindProcess m p with
  | none => rfl
  | some pProcess =>
    show Prod.fst <$> (PerfProcess.showTrees m pProcess >>= _) = (_ >>= _)
    rw [map_bind]
    refine bind_congr fun _ => ?_
    rw [map_bind]
    refine bind_congr fun closed => ?_
    show Prod.fst <$> (PerfProcess.reportData closed.1 pProcess env >>= _) = _
    rw [map_bind]
    exact bind_pure _

theorem handleCloseThread_eq (m : Mem) (self : pid_t) (tID : pthread_t) :
    Prod.fst <$> handleCloseThread m ⟨self, tID⟩ = InProc.RDKPerf_CloseThread m self tID := by
  unfold handleCloseThread InProc.RDKPerf_CloseThread
  cases RDKPerf_FindProcess m self with
  | none => rfl
  | some pProcess => rfl

theorem handleCloseProcess_eq (m : Mem) (p : pid_t) :
    Prod.fst <$> handleCloseProcess m ⟨p⟩ = InProc.RDKPerf_CloseProcess m p := by
  unfold handleCloseProcess InProc.RDKPerf_CloseProcess
  cases RDKPerf_RemoveProcess m p with
  | error e => rfl
  | ok m' => rfl

/-- With the process in the map, both report the tree the thread map has, if there is one. -/
def reportFound (m : Mem) (pTree : Option TreePtr) : Except Fault Mem :=
  match pTree with
  | none => .ok m
  | some pTree => PerfTree.reportData m pTree 0

theorem handleReportThread_eq (h : Rep m w) (self : pid_t) (tID : pthread_t) (env : Env) :
    Prod.fst <$> handleReportThread m ⟨self, tID⟩ env = reportFound m (m.treePtr self tID) := by
  rw [handleReportThread, getTree_find h, ok_bind]
  cases m.treePtr self tID with
  | none => rfl
  | some t =>
    show Prod.fst <$> (PerfTree.reportData m t 0 >>= _) = _
    rw [map_bind]
    exact bind_pure _

end Service

theorem InProc.reportThread_eq (h : Rep m w) (hreg : w.registered pID = true) (tID : pthread_t) :
    InProc.RDKPerf_ReportThread m pID tID = Service.reportFound m (m.treePtr pID tID) := by
  rw [InProc.RDKPerf_ReportThread, Service.find_registered h hreg]
  simp only [getTree_spec h hreg, ok_bind]
  cases m.treePtr pID tID <;> rfl

/-! ## Two targets are told apart by what is done to them -/

/-- A memory represents one world. -/
theorem Rep.unique (h : Rep m w) (h' : Rep m w') : w = w' := by
  refine World.ext (funext fun p => ?_) (funext fun p => funext fun s => ?_)
  · rw [← h.registered, h'.registered]
  · rw [← h.view, h'.view]

theorem treePtr_eq_iff (h : Rep m w) {s s' : pthread_t} :
    m.treePtr pID s = m.treePtr pID s' ↔
      s = s' ∨ (m.treePtr pID s = none ∧ m.treePtr pID s' = none) := by
  constructor
  · intro heq
    cases ht : m.treePtr pID s with
    | none => exact Or.inr ⟨rfl, heq.symm.trans ht⟩
    | some t =>
      obtain ⟨r, ct, hA⟩ := h.present ht
      obtain ⟨r', ct', hA'⟩ := h.present (heq.symm.trans ht)
      exact Or.inl (h.ptr_inj hA hA').2
  · rintro (rfl | ⟨hs, hs'⟩)
    · rfl
    · rw [hs, hs']

/-- The first line of a tree's report names the tree. -/
theorem reportFound_eq_iff (h : Rep m w) {s s' : pthread_t} :
    Service.reportFound m (m.treePtr pID s) = Service.reportFound m (m.treePtr pID s') ↔
      m.treePtr pID s = m.treePtr pID s' := by
  have hline : ∀ {s t}, m.treePtr pID s = some t → ∃ m' id name ms,
      PerfTree.reportData m t 0 = .ok m' ∧ m.log ++ [.tree t id name ms] <+: m'.log := by
    intro s t ht
    obtain ⟨r, ct, hA⟩ := h.present ht
    obtain ⟨m', hm', -, hlog⟩ := reportData_spec hA.tracks 0
    exact ⟨m', _, _, _, hm', hlog⟩
  refine ⟨fun heq => ?_, fun heq => by rw [heq]⟩
  cases ht : m.treePtr pID s with
  | none =>
    cases ht' : m.treePtr pID s' with
    | none => rfl
    | some t' =>
      obtain ⟨m', _, _, _, hm', hlog⟩ := hline ht'
      rw [ht, ht'] at heq
      obtain rfl := Except.ok.inj (heq.trans hm')
      exact absurd hlog not_extends_self
  | some t =>
    obtain ⟨m₁, _, _, _, hm₁, hlog₁⟩ := hline ht
    cases ht' : m.treePtr pID s' with
    | none =>
      rw [ht, ht'] at heq
      obtain rfl := Except.ok.inj (heq.symm.trans hm₁)
      exact absurd hlog₁ not_extends_self
    | some t' =>
      obtain ⟨m', _, _, _, hm', hlog⟩ := hline ht'
      rw [ht, ht'] at heq
      obtain rfl := Except.ok.inj (hm₁.symm.trans (heq.trans hm'))
      rw [(Printed.tree.inj (line_eq_of_extends hlog₁ hlog)).1]

theorem closeThread_absent (h : m.treePtr pID tID = none) :
    InProc.RDKPerf_CloseThread m pID tID = .ok m := by
  rw [InProc.RDKPerf_CloseThread, RDKPerf_FindProcess]
  cases hproc : m.processMap[pID]? with
  | none => rw [if_neg (by simp [Std.ExtTreeMap.contains_eq_isSome_getElem?, hproc])]
            rfl
  | some proc =>
    rw [if_pos (by simp [Std.ExtTreeMap.contains_eq_isSome_getElem?, hproc])]
    rw [Mem.treePtr_of_process hproc] at h
    show Prod.fst <$> PerfProcess.removeTree m pID tID = _
    rw [PerfProcess.removeTree, Mem.process_eq_ok.mpr hproc, ok_bind, h]
    rfl

theorem closeThread_eq_iff (h : Rep m w) {s s' : pthread_t} :
    InProc.RDKPerf_CloseThread m pID s = InProc.RDKPerf_CloseThread m pID s' ↔
      s = s' ∨ (m.treePtr pID s = none ∧ m.treePtr pID s' = none) := by
  constructor
  · intro heq
    obtain ⟨m₁, hm₁, hE₁⟩ := closeThread_spec h pID s
    obtain ⟨m₂, hm₂, hE₂⟩ := closeThread_spec h pID s'
    obtain rfl := Except.ok.inj (hm₁.symm.trans (heq.trans hm₂))
    have hw := hE₁.rep.unique hE₂.rep
    refine or_iff_not_imp_left.mpr fun hne => ?_
    have hs := congrFun (congrFun (congrArg World.tree hw) pID) s
    have hs' := congrFun (congrFun (congrArg World.tree hw) pID) s'
    rw [World.set_tree, World.set_tree, if_pos ⟨rfl, rfl⟩, if_neg fun hk => hne hk.2] at hs
    rw [World.set_tree, World.set_tree, if_neg fun hk => hne hk.2.symm, if_pos ⟨rfl, rfl⟩] at hs'
    rw [h.treePtr_none_iff, h.treePtr_none_iff]
    exact ⟨hs.symm, hs'⟩
  · rintro (rfl | ⟨hs, hs'⟩)
    · rfl
    · rw [closeThread_absent hs, closeThread_absent hs']

/-- The first line of a process's report names the process. -/
theorem reportProcess_line (h : Rep m w) (hreg : w.registered p = true) (env : Env) :
    ∃ m' size, InProc.RDKPerf_ReportProcess m p env = .ok m' ∧
      m.log ++ [.process size p.toUInt32] <+: m'.log := by
  obtain ⟨m₁, b, hm₁, hE₁, -⟩ := closeInactiveThreads_spec h hreg
  obtain ⟨m₂, size, hm₂, -, hlog⟩ := reportProcessData_spec hE₁.rep hreg env
  rw [PerfProcess.closeInactiveThreads_log hm₁] at hlog
  refine ⟨m₂, size, ?_, hlog⟩
  rw [InProc.RDKPerf_ReportProcess, Service.find_registered h hreg]
  simp only [showTrees_spec h hreg, hm₁, hm₂, ok_bind]

theorem reportProcess_eq_iff (h : Rep m w) (p q : pid_t) (env : Env) :
    InProc.RDKPerf_ReportProcess m p env = InProc.RDKPerf_ReportProcess m q env ↔
      p = q ∨ (RDKPerf_FindProcess m p = none ∧ RDKPerf_FindProcess m q = none) := by
  have hunreg : ∀ {p}, w.registered p = false → InProc.RDKPerf_ReportProcess m p env = .ok m := by
    intro p hreg
    rw [InProc.RDKPerf_ReportProcess, Service.find_unregistered h hreg]
    rfl
  constructor
  · intro heq
    cases hp : w.registered p with
    | false =>
      cases hq : w.registered q with
      | false => exact Or.inr ⟨Service.find_unregistered h hp, Service.find_unregistered h hq⟩
      | true =>
        obtain ⟨m', _, hm', hlog⟩ := reportProcess_line h hq env
        rw [hunreg hp] at heq
        obtain rfl := Except.ok.inj (heq.trans hm')
        exact absurd hlog not_extends_self
    | true =>
      obtain ⟨m₁, _, hm₁, hlog₁⟩ := reportProcess_line h hp env
      cases hq : w.registered q with
      | false =>
        rw [hunreg hq] at heq
        obtain rfl := Except.ok.inj (heq.symm.trans hm₁)
        exact absurd hlog₁ not_extends_self
      | true =>
        obtain ⟨m', _, hm', hlog⟩ := reportProcess_line h hq env
        obtain rfl := Except.ok.inj (hm₁.symm.trans (heq.trans hm'))
        have hid := (Printed.process.inj (line_eq_of_extends hlog₁ hlog)).2
        exact Or.inl (congrArg Int32.ofUInt32 hid)
  · rintro (rfl | ⟨hp, hq⟩)
    · rfl
    · rw [InProc.RDKPerf_ReportProcess, InProc.RDKPerf_ReportProcess, hp, hq]

theorem closeProcess_eq_iff (h : Rep m w) (p q : pid_t) :
    InProc.RDKPerf_CloseProcess m p = InProc.RDKPerf_CloseProcess m q ↔
      p = q ∨ (RDKPerf_FindProcess m p = none ∧ RDKPerf_FindProcess m q = none) := by
  constructor
  · intro heq
    obtain ⟨m₁, hm₁, hE₁⟩ := removeProcess_spec h p
    obtain ⟨m₂, hm₂, hE₂⟩ := removeProcess_spec h q
    obtain rfl := Except.ok.inj (hm₁.symm.trans (heq.trans hm₂))
    have hw := hE₁.rep.unique hE₂.rep
    refine or_iff_not_imp_left.mpr fun hne => ?_
    have hp := congrFun (congrArg World.registered hw) p
    have hq := congrFun (congrArg World.registered hw) q
    simp only [World.removeProcess_registered, ne_eq, hne, Ne.symm hne, not_true_eq_false,
      not_false_eq_true, decide_true, decide_false, Bool.true_and, Bool.false_and] at hp hq
    exact ⟨Service.find_unregistered h hp.symm, Service.find_unregistered h hq⟩
  · rintro (rfl | ⟨hp, hq⟩)
    · rfl
    · unfold InProc.RDKPerf_CloseProcess RDKPerf_RemoveProcess
      rw [hp, hq]

/-! ## A target that is not there is told by what is not done -/

theorem reportFound_unchanged_iff (h : Rep m w) :
    Service.reportFound m (m.treePtr pID tID) = .ok m ↔ m.treePtr pID tID = none := by
  constructor
  · intro hsame
    by_contra hfound
    obtain ⟨t, ht⟩ := Option.ne_none_iff_exists'.mp hfound
    obtain ⟨r, ct, hA⟩ := h.present ht
    obtain ⟨m', hm', -, hlog⟩ := reportData_spec hA.tracks 0
    rw [ht] at hsame
    obtain rfl := Except.ok.inj (hsame.symm.trans hm')
    exact absurd hlog not_extends_self
  · intro hnone
    rw [hnone]
    rfl

theorem closeThread_unchanged_iff (h : Rep m w) :
    InProc.RDKPerf_CloseThread m pID tID = .ok m ↔ m.treePtr pID tID = none := by
  refine ⟨fun hsame => ?_, closeThread_absent⟩
  obtain ⟨m', hm', hE⟩ := closeThread_spec h pID tID
  obtain rfl := Except.ok.inj (hsame.symm.trans hm')
  have htree := congrFun (congrFun (congrArg World.tree (h.unique hE.rep)) pID) tID
  rw [World.set_tree, if_pos ⟨rfl, rfl⟩] at htree
  exact h.treePtr_none_iff.mpr htree

theorem reportProcess_unchanged_iff (h : Rep m w) (env : Env) :
    InProc.RDKPerf_ReportProcess m p env = .ok m ↔ RDKPerf_FindProcess m p = none := by
  constructor
  · intro hsame
    cases hreg : w.registered p with
    | false => exact Service.find_unregistered h hreg
    | true =>
      obtain ⟨m', size, hm', hlog⟩ := reportProcess_line h hreg env
      obtain rfl := Except.ok.inj (hsame.symm.trans hm')
      exact absurd hlog not_extends_self
  · intro hnone
    rw [InProc.RDKPerf_ReportProcess, hnone]
    rfl

theorem closeProcess_unchanged_iff (h : Rep m w) :
    InProc.RDKPerf_CloseProcess m p = .ok m ↔ RDKPerf_FindProcess m p = none := by
  constructor
  · intro hsame
    obtain ⟨m', hm', hE⟩ := removeProcess_spec h p
    obtain rfl := Except.ok.inj (hsame.symm.trans hm')
    have hreg := congrFun (congrArg World.registered (h.unique hE.rep)) p
    rw [World.removeProcess_registered] at hreg
    exact Service.find_unregistered h (hreg.trans (by simp))
  · intro hnone
    rw [InProc.RDKPerf_CloseProcess, RDKPerf_RemoveProcess, hnone]
    rfl

/-! ## A call through the queue -/

/-- The memory of either build after some run of it. -/
def Reachable (m : Mem) : Prop :=
  (∃ pID ops s, InProc.run pID ops = .ok s ∧ s.mem = m) ∨ ∃ ds s, Service.run ds = .ok s ∧ s.mem = m

theorem Reachable.rep (h : Reachable m) : ∃ w, Rep m w := by
  rcases h with ⟨pID, ops, s, hs, rfl⟩ | ⟨ds, s, hs, rfl⟩
  · exact ⟨_, (InProc.run_sim hs).rep⟩
  · exact Service.run_rep hs

namespace Op

/-- The clocks the call reads. -/
def env : Op → Env
  | .start _ _ _ env | .stop _ _ env | .reportProcess _ _ env => env
  | _ => {}

/-- The ids the call names are those of the thread and the process that make it, or neither names
    anything. The in-process build reports a thread only in a process that is there. -/
def AimsAtSelf (pID : pid_t) (m : Mem) : Op → Prop
  | .reportThread caller tID =>
    RDKPerf_FindProcess m pID ≠ none ∧
      (tID = caller.tid ∨ (m.treePtr pID tID = none ∧ m.treePtr pID caller.tid = none))
  | .closeThread caller tID =>
    tID = caller.tid ∨ (m.treePtr pID tID = none ∧ m.treePtr pID caller.tid = none)
  | .reportProcess _ p _ | .closeProcess _ p =>
    p = pID ∨ (RDKPerf_FindProcess m p = none ∧ RDKPerf_FindProcess m pID = none)
  | _ => True

/-- What the call names is not there; a report of a thread needs the process. -/
def AimsAtNothing (pID : pid_t) (m : Mem) : Op → Prop
  | .reportThread _ tID => RDKPerf_FindProcess m pID ≠ none ∧ m.treePtr pID tID = none
  | .closeThread _ tID => m.treePtr pID tID = none
  | .reportProcess _ p _ | .closeProcess _ p => RDKPerf_FindProcess m p = none
  | _ => True

end Op

/-- The call in the remote build, up to its end in the service: the messages it sends are handled,
    in order, on the map `m`. -/
def Client.carryOut (c : Client) (op : Op) (m : Mem) : Except Fault Mem := do
  let c' ← c.step op
  (c'.sent.drop c.sent.length).foldlM
    (fun m msg => Prod.fst <$> Service.handleMessage m msg op.env) m

variable {c : Client} {s : InProc}

/-- A control call sends one message, without a name, and is what the service makes of it. -/
theorem Client.carryOut_control (hqueue : c.queue = true) {op : Op} {type : MessageType}
    (hstep : c.step op = c.sendMessage op.caller type none 0 0)
    (htype : type ≠ .eNoMessage ∧ type ≠ .eMaxType ∧ type ≠ .eEntry ∧ type ≠ .eExit ∧
      type ≠ .eThreshold) (m : Mem) :
    ∃ msg, PerfMsgQueue.sendMessage ⟨op.caller, c.pID⟩ type none 0 0 = .ok (some msg) ∧
      c.carryOut op m = Prod.fst <$> Service.handleMessage m msg op.env := by
  obtain ⟨msg, hmsg⟩ := PerfMsgQueue.sendMessage_accepts_iff.mpr
    ⟨htype.1, htype.2.1, fun _ => htype.2.2⟩
  refine ⟨msg, hmsg, ?_⟩
  rw [carryOut, hstep, Client.sendMessage, if_pos hqueue, hmsg]
  show ((c.sent ++ [msg]).drop c.sent.length).foldlM _ m = _
  rw [List.drop_left, List.foldlM_cons]
  exact bind_pure _

namespace Client

/-! Whatever a control call names, the service does it to the caller. -/

theorem carryOut_reportThread (hqueue : c.queue = true) (h : Rep m w) (caller : Caller)
    (tID : pthread_t) : c.carryOut (.reportThread caller tID) m =
      Service.reportFound m (m.treePtr c.pID caller.tid) := by
  obtain ⟨msg, hmsg, hrun⟩ := carryOut_control hqueue
    (show c.step (.reportThread caller tID) = c.sendMessage _ .eReportThread none 0 0 from rfl) (by simp) m
  obtain ⟨htype, hfields⟩ := PerfMsgQueue.sent_reportThread hmsg
  rw [hrun, Service.handleMessage, htype, MessageType.ofCode_code]
  show Prod.fst <$> Service.handleReportThread m msg.report_thread _ = _
  rw [hfields]
  exact Service.handleReportThread_eq h _ _ _

theorem carryOut_closeThread (hqueue : c.queue = true) (caller : Caller) (tID : pthread_t) :
    c.carryOut (.closeThread caller tID) m = InProc.RDKPerf_CloseThread m c.pID caller.tid := by
  obtain ⟨msg, hmsg, hrun⟩ := carryOut_control hqueue
    (show c.step (.closeThread caller tID) = c.sendMessage _ .eCloseThread none 0 0 from rfl) (by simp) m
  obtain ⟨htype, hfields⟩ := PerfMsgQueue.sent_closeThread hmsg
  rw [hrun, Service.handleMessage, htype, MessageType.ofCode_code]
  show Prod.fst <$> Service.handleCloseThread m msg.close_thread = _
  rw [hfields]
  exact Service.handleCloseThread_eq m _ _

theorem carryOut_reportProcess (hqueue : c.queue = true) (caller : Caller) (p : pid_t) (env : Env) :
    c.carryOut (.reportProcess caller p env) m = InProc.RDKPerf_ReportProcess m c.pID env := by
  obtain ⟨msg, hmsg, hrun⟩ := carryOut_control hqueue
    (show c.step (.reportProcess caller p env) = c.sendMessage _ .eReportProcess none 0 0 from rfl) (by simp) m
  obtain ⟨htype, hfields⟩ := PerfMsgQueue.sent_reportProcess hmsg
  rw [hrun, Service.handleMessage, htype, MessageType.ofCode_code]
  show Prod.fst <$> Service.handleReportProcess m msg.report_process env = _
  rw [hfields]
  exact Service.handleReportProcess_eq m _ env

theorem carryOut_closeProcess (hqueue : c.queue = true) (caller : Caller) (p : pid_t) :
    c.carryOut (.closeProcess caller p) m = InProc.RDKPerf_CloseProcess m c.pID := by
  obtain ⟨msg, hmsg, hrun⟩ := carryOut_control hqueue
    (show c.step (.closeProcess caller p) = c.sendMessage _ .eCloseProcess none 0 0 from rfl) (by simp) m
  obtain ⟨htype, hfields⟩ := PerfMsgQueue.sent_closeProcess hmsg
  rw [hrun, Service.handleMessage, htype, MessageType.ofCode_code]
  show Prod.fst <$> Service.handleCloseProcess m msg.close_process = _
  rw [hfields]
  exact Service.handleCloseProcess_eq m _

end Client

theorem InProc.mem_onMem (s : InProc) (f : Mem → Except Fault Mem) :
    (·.mem) <$> s.onMem f = f s.mem := by
  unfold InProc.onMem
  cases f s.mem with
  | error e => rfl
  | ok m' => rfl

/-- Without a queue a control call is lost. -/
theorem Client.carryOut_lost (hqueue : c.queue = false) {op : Op} (hop : op.isReport ∨ op.isClose)
    (m : Mem) : c.carryOut op m = .ok m := by
  have hstep : c.step op = .ok c := by
    cases op with
    | start _ _ _ _ | stop _ _ _ | setThreshold _ _ _ => simp [Op.isReport, Op.isClose] at hop
    | reportProcess _ _ _ | reportThread _ _ | closeThread _ _ | closeProcess _ _ =>
      exact if_neg (by simp [hqueue])
  rw [carryOut, hstep, ok_bind, List.drop_length]
  rfl

/-- What is sent is done to the caller. -/
theorem control_sent_iff {op : Op} (hop : op.isReport ∨ op.isClose) (hw : Rep s.mem w)
    (hpID : c.pID = s.pID) (hqueue : c.queue = true) :
    c.carryOut op s.mem = (·.mem) <$> s.step op ↔ op.AimsAtSelf s.pID s.mem := by
  cases op with
  | start caller szName nThresholdInUS env => simp [Op.isReport, Op.isClose] at hop
  | stop caller hPerf env => simp [Op.isReport, Op.isClose] at hop
  | setThreshold caller hPerf nThresholdInUS => simp [Op.isReport, Op.isClose] at hop
  | reportProcess caller p env =>
    rw [c.carryOut_reportProcess hqueue, hpID]
    simp only [InProc.step, InProc.mem_onMem, Op.AimsAtSelf]
    rw [eq_comm]
    exact reportProcess_eq_iff hw p s.pID env
  | reportThread caller tID =>
    rw [Client.carryOut_reportThread hqueue hw, hpID]
    simp only [InProc.step, InProc.mem_onMem, Op.AimsAtSelf]
    rw [eq_comm]
    cases hreg : w.registered s.pID with
    | false =>
      -- the in-process call follows a null pointer, and the service has nothing to report
      have hnone : ∀ {t}, s.mem.treePtr s.pID t = none :=
        hw.treePtr_none_iff.mpr (hw.tree_none_of_unregistered hreg)
      rw [InProc.RDKPerf_ReportThread, Service.find_unregistered hw hreg, hnone]
      exact iff_of_false (by simp [Service.reportFound]) fun hk => hk.1 rfl
    | true =>
      rw [InProc.reportThread_eq hw hreg, reportFound_eq_iff hw, treePtr_eq_iff hw,
        Service.find_registered hw hreg]
      simp
  | closeThread caller tID =>
    rw [Client.carryOut_closeThread hqueue, hpID]
    simp only [InProc.step, InProc.mem_onMem, Op.AimsAtSelf]
    rw [eq_comm]
    exact closeThread_eq_iff hw
  | closeProcess caller p =>
    rw [Client.carryOut_closeProcess hqueue, hpID]
    simp only [InProc.step, InProc.mem_onMem, Op.AimsAtSelf]
    rw [eq_comm]
    exact closeProcess_eq_iff hw p s.pID

/-- What is lost agrees with a call that does nothing. -/
theorem control_lost_iff {op : Op} (hop : op.isReport ∨ op.isClose) (hw : Rep s.mem w)
    (hqueue : c.queue = false) :
    c.carryOut op s.mem = (·.mem) <$> s.step op ↔ op.AimsAtNothing s.pID s.mem := by
  rw [Client.carryOut_lost hqueue hop, eq_comm]
  cases op with
  | start _ _ _ _ | stop _ _ _ | setThreshold _ _ _ => simp [Op.isReport, Op.isClose] at hop
  | reportProcess caller p env =>
    simp only [InProc.step, InProc.mem_onMem, Op.AimsAtNothing]
    exact reportProcess_unchanged_iff hw env
  | reportThread caller tID =>
    simp only [InProc.step, InProc.mem_onMem, Op.AimsAtNothing]
    cases hreg : w.registered s.pID with
    | false =>
      rw [InProc.RDKPerf_ReportThread, Service.find_unregistered hw hreg]
      exact iff_of_false (by simp) fun hk => hk.1 rfl
    | true =>
      rw [InProc.reportThread_eq hw hreg, reportFound_unchanged_iff hw,
        Service.find_registered hw hreg]
      simp
  | closeThread caller tID =>
    simp only [InProc.step, InProc.mem_onMem, Op.AimsAtNothing]
    exact closeThread_unchanged_iff hw
  | closeProcess caller p =>
    simp only [InProc.step, InProc.mem_onMem, Op.AimsAtNothing]
    exact closeProcess_unchanged_iff hw

/-- **A control call means the same in both builds exactly when it is about its caller**, or about
    nothing; in a process without a queue, exactly when it is about nothing. Both builds hold the
    same map, which either of them can have come by. -/
theorem control_agrees_iff {op : Op} (hop : op.isReport ∨ op.isClose) (hreach : Reachable s.mem)
    (hpID : c.pID = s.pID) : c.carryOut op s.mem = (·.mem) <$> s.step op ↔
      (c.queue = true → op.AimsAtSelf s.pID s.mem) ∧
      (c.queue = false → op.AimsAtNothing s.pID s.mem) := by
  obtain ⟨w, hw⟩ := hreach.rep
  cases hqueue : c.queue with
  | true => simpa using control_sent_iff hop hw hpID hqueue
  | false => simpa using control_lost_iff hop hw hqueue

/-- Two threads, each with a call open. -/
def twoOpen : List Op := [.start threadA nameF none {}, .start threadB nameG none {}]

/-- Thread `A` closes itself. -/
theorem closeThread_self_agrees : ∃ s c, InProc.run 42 twoOpen = .ok s ∧
    Client.run 42 twoOpen = .ok c ∧
    (c.carryOut (.closeThread threadA 1) s.mem = (·.mem) <$> s.step (.closeThread threadA 1) ↔
      (c.queue = true → Op.AimsAtSelf s.pID s.mem (.closeThread threadA 1)) ∧
      (c.queue = false → Op.AimsAtNothing s.pID s.mem (.closeThread threadA 1))) := by
  obtain ⟨s, hs, hspID⟩ := ok_of_toOption_bind
    (show (InProc.run 42 twoOpen).toOption.bind (fun s => some s.pID) = some 42 by decide)
  obtain ⟨c, hc, hcpID⟩ := ok_of_toOption_bind
    (show (Client.run 42 twoOpen).toOption.bind (fun c => some c.pID) = some 42 by decide)
  exact ⟨s, c, hs, hc, control_agrees_iff (Or.inr rfl) (Or.inl ⟨42, twoOpen, s, hs, rfl⟩)
    ((Option.some.inj hcpID).trans (Option.some.inj hspID).symm)⟩

/-- Thread `A` closes thread `B`: in the process `B` loses its tree, and in the service `A`. -/
theorem closeThread_closes_caller : ¬ ∀ (pID : pid_t) (ops : List Op) (s s' : InProc) (c : Client)
    (op : Op) (m' : Mem), InProc.run pID ops = .ok s → Client.run pID ops = .ok c →
      op.isReport ∨ op.isClose → s.step op = .ok s' → c.carryOut op s.mem = .ok m' →
        ∀ tID, m'.treePtr pID tID = none ↔ s'.mem.treePtr pID tID = none := by
  intro hall
  obtain ⟨s, hs, hown⟩ := ok_of_toOption_bind (show (InProc.run 42 twoOpen).toOption.bind (fun s =>
    (s.step (.closeThread threadA 2)).toOption.bind fun s' => s'.mem.treePtr 42 1) = some 0 by decide)
  obtain ⟨s', hs', hown⟩ := ok_of_toOption_bind hown
  obtain ⟨c, hc, hmem⟩ := ok_of_toOption_bind (show (Client.run 42 twoOpen).toOption.bind (fun c =>
    (InProc.run 42 twoOpen).toOption.bind fun s =>
      (c.carryOut (.closeThread threadA 2) s.mem).toOption.bind fun m' =>
        some (m'.treePtr 42 1)) = some none by decide)
  obtain ⟨s₁, hs₁, hmem⟩ := ok_of_toOption_bind hmem
  obtain rfl := Except.ok.inj (hs.symm.trans hs₁)
  obtain ⟨m', hm', hgone⟩ := ok_of_toOption_bind hmem
  have hsame := hall 42 twoOpen s s' c (.closeThread threadA 2) m' hs hc (Or.inr rfl) hs' hm' 1
  exact absurd (hsame.mp (Option.some.inj hgone)) (by rw [hown]; simp)

end RdkPerf

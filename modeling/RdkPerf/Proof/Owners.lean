import RdkPerf.Proof.Sheds

/-!
# Every object has one owner

Nodes and trees are made as calls are entered, and deleted in three places. In between they are
handed around as bare pointers, and that no `delete` is missed is up to the code. It misses none:
in either build, after any run, what is live is what the process map leads to, a tree from one entry
and a node along one path (`owned`). So what a close or a report removes is given back, and a map
without entries is a heap without objects.

Where nothing is made, what is still live keeps its owner; and what entering a call makes is on the
stack of the tree it enters.
-/

namespace RdkPerf

open Lib

/-- The node at a path of a thread's tree. -/
def Mem.nodePtr (m : Mem) (pID : pid_t) (tID : pthread_t) (π : Path) : Option NodePtr := do
  let t ← m.treePtr pID tID
  let tree ← m.trees.get t
  let r ← tree.rootNode
  walk (childOf m) r π

variable {m m' : Mem} {w w' : World} {pID : pid_t} {tID : pthread_t} {t : TreePtr} {env : Env}
  {b : Bool}

/-! ## Owners -/

theorem At.nodePtr {r : NodePtr} {ct : CallTree} (hA : At m w pID tID t r ct) (π : Path) :
    m.nodePtr pID tID π = walk (childOf m) r π := by
  obtain ⟨stack, htree, -⟩ := hA.tracks.tree
  rw [Mem.nodePtr, hA.ptr, Option.bind_eq_bind, Option.bind_some, htree]
  rfl

/-- A path that leads to a node is one of a registered tree. -/
theorem Rep.at_of_nodePtr (h : Rep m w) {π : Path} {q : NodePtr}
    (hq : m.nodePtr pID tID π = some q) :
    ∃ t r ct, At m w pID tID t r ct ∧ walk (childOf m) r π = some q := by
  obtain ⟨t, ht, -⟩ := Option.bind_eq_some_iff.mp hq
  obtain ⟨r, ct, hA⟩ := h.present ht
  exact ⟨t, r, ct, hA, (hA.nodePtr π).symm.trans hq⟩

/-- Every live node is on a path of a registered tree, and every live tree is registered. -/
structure Owned (m : Mem) : Prop where
  node : ∀ {q}, m.nodes.get q ≠ none → ∃ pID tID π, m.nodePtr pID tID π = some q
  tree : ∀ {t}, m.trees.get t ≠ none → ∃ pID tID, m.treePtr pID tID = some t

namespace Owned

theorem init : Owned .init where
  node hq := absurd rfl hq
  tree ht := absurd rfl ht

/-- An old node is where it was, or dead; so only the new ones need an owner. -/
theorem evolve (hO : Owned m) (h : Rep m w) (hE : Evolve m w m' w')
    (hborn : ∀ {q}, m.nodes.next ≤ q → q < m'.nodes.next →
      ∃ pID tID π, m'.nodePtr pID tID π = some q)
    (htree : ∀ {t}, m'.trees.get t ≠ none → ∃ pID tID, m'.treePtr pID tID = some t) :
    Owned m' := by
  refine ⟨fun {q} hq => ?_, htree⟩
  obtain ⟨n, hn⟩ := Option.ne_none_iff_exists'.mp hq
  rcases Nat.lt_or_ge q m.nodes.next with hold | hnew
  · have hlive : m.nodes.get q ≠ none := fun hdead => hq (hE.dead hold hdead)
    obtain ⟨pID, tID, π, hπ⟩ := hO.node hlive
    obtain ⟨t, r, ct, hA, hw⟩ := h.at_of_nodePtr hπ
    cases hct : w'.tree pID tID with
    | none => exact absurd (hE.goes hA hct ⟨π, hw⟩) hq
    | some ct' =>
      obtain ⟨hA', hwalk⟩ := hE.stays hA hct
      exact ⟨pID, tID, π, (hA'.nodePtr π).trans (hwalk hw)⟩
  · exact hborn hnew (Store.lt_next hn)

theorem sheds (hO : Owned m) (h : Rep m w) (hE : Evolve m w m' w') (hS : Sheds m m') :
    Owned m' := by
  refine hO.evolve h hE (fun hge hlt => ?_) fun {t} ht => ?_
  · rw [hS.next] at hlt
    exact absurd hlt (Nat.not_lt.mpr hge)
  · obtain ⟨pID, tID, hptr⟩ := hO.tree (hS.live ht)
    exact ⟨pID, tID, hS.kept ht hptr⟩

/-- What is on a stack is in its tree. -/
theorem placed (hO : Owned m) (h : Rep m w) (hE : Evolve m w m' w')
    (hP : Placed m m' pID tID t) : Owned m' := by
  refine hO.evolve h hE (fun hge hlt => ?_) fun {t'} ht' => ?_
  · obtain ⟨tree, htree, hq⟩ := hP.nodes hge hlt
    obtain ⟨r, ct, hA⟩ := hE.rep.present hP.ptr
    obtain ⟨stack, hobject, hs⟩ := hA.tracks.tree
    obtain rfl := Option.some.inj (htree.symm.trans hobject)
    obtain ⟨σ, -, hσ⟩ := hs.mem_iff.mp hq
    exact ⟨pID, tID, σ, (hA.nodePtr σ).trans hσ⟩
  · rcases hP.live ht' with hold | rfl
    · obtain ⟨p, s, hold⟩ := hO.tree hold
      exact ⟨p, s, hP.kept hold⟩
    · exact ⟨pID, tID, hP.ptr⟩

end Owned

/-! ## The service -/

namespace Service

theorem handleEntry_placed (h : Rep m w) {msg : EntryMessage}
    (hrun : handleEntry m msg env = .ok (m', b)) : ∃ t, Placed m m' msg.pID msg.tID t := by
  obtain ⟨m₁, t, hget, -⟩ := getTree_create h msg.pID msg.tID env
  rw [handleEntry, hget, ok_bind] at hrun
  obtain ⟨⟨m₃, pNode⟩, hadd, hrun⟩ := bind_eq_ok.mp hrun
  obtain ⟨⟨m₂, pTop⟩, htop, hadd⟩ := bind_eq_ok.mp hadd
  cases hname : msg.szName with
  | none =>
    simp only [hname] at hadd
    exact absurd hadd (by simp)
  | some szName =>
    simp only [hname] at hadd
    have hP := entered_placed h (keepsStack_entry _ _) hget htop hadd
    refine ⟨t, ?_⟩
    dsimp only at hrun
    split at hrun
    · obtain ⟨rfl, -⟩ := Prod.mk.inj (Except.ok.inj hrun)
      exact ⟨hP.nodes, hP.ptr, hP.live, hP.kept⟩
    · obtain ⟨rfl, -⟩ := Prod.mk.inj (Except.ok.inj hrun)
      exact hP

theorem handleThreshold_sheds (h : Rep m w) {msg : ThresholdMessage}
    (hrun : handleThreshold m msg env = .ok (m', b)) : Sheds m m' := by
  rw [handleThreshold, getTree_find h, ok_bind] at hrun
  cases ht : m.treePtr msg.pID msg.tID with
  | none =>
    rw [ht] at hrun
    obtain ⟨rfl, -⟩ := Prod.mk.inj (Except.ok.inj hrun)
    exact .refl m
  | some t =>
    simp only [ht] at hrun
    obtain ⟨pNode, -, hrun⟩ := bind_eq_ok.mp hrun
    split at hrun
    · obtain ⟨_, -, hrun⟩ := bind_eq_ok.mp hrun
      obtain ⟨rfl, -⟩ := Prod.mk.inj (Except.ok.inj hrun)
      exact .of_nodes rfl rfl rfl
    · obtain ⟨rfl, -⟩ := Prod.mk.inj (Except.ok.inj hrun)
      exact .refl m

theorem handleExit_sheds (h : Rep m w) {msg : ExitMessage}
    (hrun : handleExit m msg env = .ok (m', b)) : Sheds m m' := by
  rw [handleExit, getTree_find h, ok_bind] at hrun
  cases ht : m.treePtr msg.pID msg.tID with
  | none =>
    rw [ht] at hrun
    obtain ⟨rfl, -⟩ := Prod.mk.inj (Except.ok.inj hrun)
    exact .refl m
  | some t =>
    simp only [ht] at hrun
    obtain ⟨pNode, -, hrun⟩ := bind_eq_ok.mp hrun
    obtain ⟨node, -, hrun⟩ := bind_eq_ok.mp hrun
    cases hname : msg.szName with
    | none => simp [hname] at hrun
    | some szName =>
      simp only [hname] at hrun
      split at hrun
      · obtain ⟨m₁, hinc, hrun⟩ := bind_eq_ok.mp hrun
        obtain ⟨m₂, hclose, hrun⟩ := bind_eq_ok.mp hrun
        obtain ⟨rfl, -⟩ := Prod.mk.inj (Except.ok.inj hrun)
        exact (PerfNode.incrementData_sheds hinc).trans (PerfNode.closeNode_sheds hclose)
      · obtain ⟨rfl, -⟩ := Prod.mk.inj (Except.ok.inj hrun)
        exact .refl m

theorem handleReportThread_sheds (h : Rep m w) {msg : ThreadMessage}
    (hrun : handleReportThread m msg env = .ok (m', b)) : Sheds m m' := by
  rw [handleReportThread, getTree_find h, ok_bind] at hrun
  cases ht : m.treePtr msg.pID msg.tID with
  | none =>
    rw [ht] at hrun
    obtain ⟨rfl, -⟩ := Prod.mk.inj (Except.ok.inj hrun)
    exact .refl m
  | some t =>
    simp only [ht] at hrun
    obtain ⟨m₁, hm₁, hrun⟩ := bind_eq_ok.mp hrun
    obtain ⟨rfl, -⟩ := Prod.mk.inj (Except.ok.inj hrun)
    exact PerfTree.reportData_sheds hm₁

theorem handleReportProcess_sheds {msg : ProcessMessage}
    (hrun : handleReportProcess m msg env = .ok (m', b)) : Sheds m m' := by
  unfold handleReportProcess at hrun
  split at hrun
  · obtain ⟨rfl, -⟩ := Prod.mk.inj (Except.ok.inj hrun)
    exact .refl m
  · obtain ⟨_, -, hrun⟩ := bind_eq_ok.mp hrun
    obtain ⟨⟨m₁, b₁⟩, hclose, hrun⟩ := bind_eq_ok.mp hrun
    obtain ⟨m₂, hreport, hrun⟩ := bind_eq_ok.mp hrun
    obtain ⟨rfl, -⟩ := Prod.mk.inj (Except.ok.inj hrun)
    exact (PerfProcess.closeInactiveThreads_sheds hclose).trans
      (PerfProcess.reportData_sheds hreport)

theorem handleCloseThread_sheds {msg : ThreadMessage}
    (hrun : handleCloseThread m msg = .ok (m', b)) : Sheds m m' := by
  unfold handleCloseThread at hrun
  split at hrun
  · obtain ⟨rfl, -⟩ := Prod.mk.inj (Except.ok.inj hrun)
    exact .refl m
  · exact PerfProcess.removeTree_sheds hrun

theorem handleCloseProcess_sheds {msg : ProcessMessage}
    (hrun : handleCloseProcess m msg = .ok (m', b)) : Sheds m m' := by
  obtain ⟨m₁, hremove, hrun⟩ := bind_eq_ok.mp hrun
  obtain ⟨rfl, -⟩ := Prod.mk.inj (Except.ok.inj hrun)
  exact removeProcess_sheds hremove

/-- **One message** leaves no object without an owner. -/
theorem handleMessage_owned (h : Rep m w) (hO : Owned m) {msg : PerfMessage}
    (hrun : handleMessage m msg env = .ok (m', b)) : (∃ w', Rep m' w') ∧ Owned m' := by
  have href := handleMessage_refines h msg env
  cases hw : w.handle msg with
  | error e =>
    rw [hw] at href
    exact absurd (hrun.symm.trans href) (by simp)
  | ok wb =>
    obtain ⟨w', b'⟩ := wb
    rw [hw] at href
    obtain ⟨m₁, hm₁, hE⟩ := href
    obtain ⟨rfl, rfl⟩ := Prod.mk.inj (Except.ok.inj (hrun.symm.trans hm₁))
    refine ⟨⟨w', hE.rep⟩, ?_⟩
    unfold handleMessage at hrun
    cases htype : MessageType.ofCode msg.type with
    | none =>
      rw [htype] at hrun
      obtain ⟨rfl, -⟩ := Prod.mk.inj (Except.ok.inj hrun)
      exact hO.sheds h hE (.refl m)
    | some type =>
      rw [htype] at hrun
      cases type with
      | eEntry =>
        obtain ⟨t, hP⟩ := handleEntry_placed h hrun
        exact hO.placed h hE hP
      | eThreshold => exact hO.sheds h hE (handleThreshold_sheds h hrun)
      | eExit => exact hO.sheds h hE (handleExit_sheds h hrun)
      | eReportThread => exact hO.sheds h hE (handleReportThread_sheds h hrun)
      | eReportProcess => exact hO.sheds h hE (handleReportProcess_sheds hrun)
      | eCloseThread => exact hO.sheds h hE (handleCloseThread_sheds hrun)
      | eCloseProcess => exact hO.sheds h hE (handleCloseProcess_sheds hrun)
      | eNoMessage | eExitQueue | eMaxType =>
        obtain ⟨rfl, -⟩ := Prod.mk.inj (Except.ok.inj hrun)
        exact hO.sheds h hE (.refl m)

theorem run_owned {ds : List Delivery} {s : State} (hs : run ds = .ok s) :
    (∃ w, Rep s.mem w) ∧ Owned s.mem := by
  induction ds using List.reverseRecOn generalizing s with
  | nil =>
    obtain rfl := Except.ok.inj hs
    exact ⟨⟨.init, .init⟩, .init⟩
  | append_singleton ds d ih =>
    obtain ⟨s₀, hs₀, hstep⟩ := foldlM_concat_ok.mp hs
    obtain ⟨⟨w, hrep⟩, hO⟩ := ih hs₀
    obtain ⟨⟨m, b⟩, hhandle, hstep⟩ := bind_eq_ok.mp hstep
    obtain rfl := Except.ok.inj hstep
    exact handleMessage_owned hrep hO hhandle

end Service

/-! ## The in-process build -/

namespace InProc

variable {s s' : InProc} {L : Ledger}

theorem construct_placed {elementName : Name} {caller : Caller} {record : PerfRecord}
    (h : Rep m w) (hrun : PerfRecord.construct m pID elementName caller env = .ok (m', record)) :
    ∃ t, Placed m m' pID caller.tid t := by
  obtain ⟨m₁, t, hget, -⟩ := getTree_create h pID caller.tid env
  rw [construct_eq h, hget, ok_bind] at hrun
  obtain ⟨⟨m₃, record₃, p⟩, hadd, hrun⟩ := bind_eq_ok.mp hrun
  obtain ⟨rfl, -⟩ := Prod.mk.inj (Except.ok.inj hrun)
  obtain ⟨⟨m₂, pTop⟩, htop, hadd⟩ := bind_eq_ok.mp hadd
  obtain ⟨⟨m₄, record₄, p₄⟩, hchild, hadd⟩ := bind_eq_ok.mp hadd
  obtain ⟨rfl, -⟩ := Prod.mk.inj (Except.ok.inj hadd)
  obtain ⟨⟨m₅, p₅⟩, hmade, hchild⟩ := bind_eq_ok.mp hchild
  obtain ⟨rfl, hpair⟩ := Prod.mk.inj (Except.ok.inj hchild)
  obtain ⟨-, rfl⟩ := Prod.mk.inj hpair
  have hpush : pushed m₂ t pTop elementName = .ok (PerfTree.pushNode m₅ t p₅, p₅) := by
    rw [pushed, show PerfNode.addChild m₂ pTop elementName (PerfNode.construct elementName) =
      .ok (m₅, p₅) from hmade]
    rfl
  exact ⟨t, entered_placed h (keepsStack_caller caller) hget htop hpush⟩

theorem reportProcess_sheds (hrun : RDKPerf_ReportProcess m pID env = .ok m') : Sheds m m' := by
  unfold RDKPerf_ReportProcess at hrun
  split at hrun
  · obtain rfl := Except.ok.inj hrun
    exact .refl m
  · obtain ⟨_, -, hrun⟩ := bind_eq_ok.mp hrun
    obtain ⟨⟨m₁, b⟩, hclose, hreport⟩ := bind_eq_ok.mp hrun
    exact (PerfProcess.closeInactiveThreads_sheds hclose).trans
      (PerfProcess.reportData_sheds hreport)

theorem reportThread_sheds (hrun : RDKPerf_ReportThread m pID tID = .ok m') : Sheds m m' := by
  unfold RDKPerf_ReportThread at hrun
  split at hrun
  · exact absurd hrun (by simp)
  · obtain ⟨pTree, -, hrun⟩ := bind_eq_ok.mp hrun
    cases pTree with
    | none =>
      obtain rfl := Except.ok.inj hrun
      exact .refl m
    | some t => exact PerfTree.reportData_sheds hrun

theorem closeThread_sheds (hrun : RDKPerf_CloseThread m pID tID = .ok m') : Sheds m m' := by
  unfold RDKPerf_CloseThread at hrun
  split at hrun
  · obtain rfl := Except.ok.inj hrun
    exact .refl m
  · rw [map_eq_pure_bind] at hrun
    obtain ⟨⟨m₁, b⟩, hremove, hrun⟩ := bind_eq_ok.mp hrun
    obtain rfl := Except.ok.inj hrun
    exact PerfProcess.removeTree_sheds hremove

/-- **One call** leaves no object without an owner. -/
theorem step_owned (hS : Sim pID s L) (hO : Owned s.mem) {op : Op} (hstep : s.step op = .ok s') :
    Owned s'.mem := by
  have h := hS.rep
  have honMem : ∀ {f : Mem → Except Fault Mem} {w' : World}, s.onMem f = .ok s' →
      (∃ m, f s.mem = .ok m ∧ Evolve s.mem (L.world s.pID) m w') →
      (∀ {m}, f s.mem = .ok m → Sheds s.mem m) → Owned s'.mem := by
    intro f w' hrun hf hsheds
    obtain ⟨m₁, hm₁, hE⟩ := hf
    obtain ⟨m, hm, hrun⟩ := bind_eq_ok.mp hrun
    obtain rfl := Except.ok.inj hrun
    obtain rfl := Except.ok.inj (hm₁.symm.trans hm)
    exact hO.sheds h hE (hsheds hm)
  cases op with
  | start caller szName nThresholdInUS env =>
    have hname : szName.bytes ≠ [] := hS.step_legal hstep
    obtain ⟨⟨m, record⟩, hmade, hstep⟩ := bind_eq_ok.mp hstep
    obtain rfl := Except.ok.inj hstep
    obtain ⟨m', p, ct, -, hm', hE, -⟩ := construct_spec h s.pID hname caller env
    obtain ⟨rfl, -⟩ := Prod.mk.inj (Except.ok.inj (hm'.symm.trans hmade))
    obtain ⟨t, hP⟩ := construct_placed h hmade
    exact hO.placed h hE hP
  | stop caller hPerf env =>
    obtain ⟨tID, calls, l, hl, ht⟩ := hS.step_legal hstep
    obtain ⟨record, p, hH⟩ := hS.attached ⟨l, hl, ht⟩
    have hct : (L.world s.pID).tree s.pID tID = some l.callTree := by
      rw [Ledger.world_tree_self, hl]
      rfl
    obtain ⟨m₁, hdestruct, hE⟩ := destruct_spec h hH.nodeIs hH.node hct env
    simp only [InProc.step, InProc.destruct, hH.get, hdestruct, ok_bind] at hstep
    obtain rfl := Except.ok.inj hstep
    exact hO.sheds h hE (PerfRecord.destruct_sheds hdestruct)
  | setThreshold caller hPerf nThresholdInUS =>
    simp only [InProc.step, InProc.setThreshhold] at hstep
    split at hstep
    · exact absurd hstep (by simp)
    · obtain rfl := Except.ok.inj hstep
      exact hO
  | reportProcess caller p env =>
    rw [InProc.step] at hstep
    exact honMem hstep (reportProcess_spec h p env) fun hm => reportProcess_sheds hm
  | reportThread caller tID =>
    have hreg : (L.world s.pID).registered s.pID = true := by
      simp only [Ledger.world, decide_true, Bool.true_and]
      exact hS.step_legal hstep
    rw [InProc.step] at hstep
    exact honMem hstep (reportThread_spec h hreg tID) fun hm => reportThread_sheds hm
  | closeThread caller tID =>
    rw [InProc.step] at hstep
    exact honMem hstep (closeThread_spec h s.pID tID) fun hm => closeThread_sheds hm
  | closeProcess caller p =>
    rw [InProc.step] at hstep
    exact honMem hstep (removeProcess_spec h p) fun hm => removeProcess_sheds hm

theorem run_owned {ops : List Op} (hs : run pID ops = .ok s) : Owned s.mem := by
  induction ops using List.reverseRecOn generalizing s with
  | nil =>
    obtain rfl := Except.ok.inj hs
    exact .init
  | append_singleton ops op ih =>
    obtain ⟨s₀, hs₀, hstep⟩ := foldlM_concat_ok.mp hs
    exact step_owned (run_sim hs₀) (ih hs₀) hstep

end InProc

theorem Reachable.owners (h : Reachable m) : (∃ w, Rep m w) ∧ Owned m := by
  rcases h with ⟨pID, ops, s, hs, rfl⟩ | ⟨ds, s, hs, rfl⟩
  · exact ⟨⟨_, (InProc.run_sim hs).rep⟩, InProc.run_owned hs⟩
  · exact Service.run_owned hs

/-- **Every object has one owner**, in either build and after any run: a node is live exactly when
    one path of one thread's tree leads to it, and a tree when it is the tree of one thread. -/
theorem owned (h : Reachable m) :
    (∀ q, m.nodes.get q ≠ none ↔
      ∃! k : pid_t × pthread_t × Path, m.nodePtr k.1 k.2.1 k.2.2 = some q) ∧
    ∀ t, m.trees.get t ≠ none ↔ ∃! k : pid_t × pthread_t, m.treePtr k.1 k.2 = some t := by
  obtain ⟨⟨w, hrep⟩, hO⟩ := h.owners
  refine ⟨fun q => ⟨fun hq => ?_, ?_⟩, fun t => ⟨fun ht => ?_, ?_⟩⟩
  · obtain ⟨pID, tID, π, hπ⟩ := hO.node hq
    refine ⟨(pID, tID, π), hπ, ?_⟩
    rintro ⟨pID', tID', π'⟩ hπ'
    obtain ⟨t, r, ct, hA, hw⟩ := hrep.at_of_nodePtr hπ
    obtain ⟨t', r', ct', hA', hw'⟩ := hrep.at_of_nodePtr hπ'
    obtain ⟨rfl, rfl⟩ := hrep.apart hA' hA ⟨_, hw'⟩ ⟨_, hw⟩
    obtain rfl := Option.some.inj (hA'.ptr.symm.trans hA.ptr)
    obtain rfl := Rep.root_eq hA' hA
    obtain rfl := hA.tracks.tidy _ _ _ hw' hw
    rfl
  · rintro ⟨⟨pID, tID, π⟩, hπ, -⟩
    obtain ⟨t, r, ct, hA, hw⟩ := hrep.at_of_nodePtr hπ
    exact hA.tracks.reached_live ⟨π, hw⟩
  · obtain ⟨pID, tID, hptr⟩ := hO.tree ht
    refine ⟨(pID, tID), hptr, ?_⟩
    rintro ⟨pID', tID'⟩ hptr'
    obtain ⟨r, ct, hA⟩ := hrep.present hptr
    obtain ⟨r', ct', hA'⟩ := hrep.present hptr'
    obtain ⟨rfl, rfl⟩ := hrep.ptr_inj hA' hA
    rfl
  · rintro ⟨⟨pID, tID⟩, hptr, -⟩
    obtain ⟨r, ct, hA⟩ := hrep.present hptr
    obtain ⟨stack, htree, -⟩ := hA.tracks.tree
    rw [htree]
    simp

/-- `g` is left inside `f`, another thread calls, and is closed. -/
def ownedRun : List Op :=
  [.start threadA nameF none {}, .start threadA nameG none {}, .stop threadA 1 {},
    .start threadB nameG none {}, .closeThread threadA 2]

theorem ownedRun_owned : ∃ m, Reachable m ∧ m.nodes.get 4 = none ∧
    m.nodePtr 42 1 [nameG.bytes, nameF.bytes] = some 2 ∧
    (∀ q, m.nodes.get q ≠ none ↔
      ∃! k : pid_t × pthread_t × Path, m.nodePtr k.1 k.2.1 k.2.2 = some q) ∧
    ∀ t, m.trees.get t ≠ none ↔ ∃! k : pid_t × pthread_t, m.treePtr k.1 k.2 = some t := by
  obtain ⟨s, hs, hfacts⟩ := ok_of_toOption_bind
    (show (InProc.run 42 ownedRun).toOption.bind (fun s => some ((s.mem.nodes.get 4).isNone,
      s.mem.nodePtr 42 1 [nameG.bytes, nameF.bytes])) = some (true, some 2) by decide)
  obtain ⟨hgone, hnode⟩ := Prod.mk.inj (Option.some.inj hfacts)
  have hreach : Reachable s.mem := Or.inl ⟨42, ownedRun, s, hs, rfl⟩
  exact ⟨s.mem, hreach, Option.isNone_iff_eq_none.mp hgone, hnode, owned hreach⟩

end RdkPerf

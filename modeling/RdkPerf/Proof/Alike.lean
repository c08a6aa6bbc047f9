import RdkPerf.Lib.Outcomes
import RdkPerf.Model.ShowCPU

/-!
# What the library does not look at

No function of the library decides anything by a figure of a node or by a line of the log. So two
memories that differ only there stay so through every function, and every function gives the same
answer on both, or the same fault. What "differ only there" is to mean is a `Likeness`: any reading
of it that new nodes, resets and report lines keep. Measuring is another matter, and is left to the
builds that are compared.
-/

namespace RdkPerf

open Lib

/-- A line of a report that shows no figure of a node. -/
def Printed.isHeading : Printed → Bool
  | .process _ _ | .cpu _ _ | .tree _ _ _ _ => true
  | .totals _ _ | .delta _ _ _ | .threshold _ _ _ _ => false

/-- Which figures of a node, and which logs, count as alike. -/
structure Likeness where
  stats : TimingStats → TimingStats → Prop
  log : List Printed → List Printed → Prop
  root : stats PerfNode.root.stats PerfNode.root.stats
  named : ∀ name, stats (PerfNode.named name).stats (PerfNode.named name).stats
  resetInterval : ∀ {s s'}, stats s s' → stats s.resetInterval s'.resetInterval
  nil : log [] []
  heading : ∀ {l l' line}, line.isHeading = true → log l l' → log (l ++ [line]) (l' ++ [line])
  totals : ∀ {l l' s s'} nLevel, stats s s' → log l l' →
    log (l ++ [.totals nLevel s]) (l' ++ [.totals nLevel s'])
  delta : ∀ {l l' s s'} nLevel, stats s s' → log l l' →
    log (l ++ [.delta nLevel s.elementName s.nLastDelta])
      (l' ++ [.delta nLevel s'.elementName s'.nLastDelta])

namespace Likeness

/-- All of a node but its figures is the same. -/
structure Node (R : Likeness) (n n' : PerfNode) : Prop where
  stats : R.stats n.stats n'.stats
  rest : n' = { n with stats := n'.stats }

structure Memory (R : Likeness) (m m' : Mem) : Prop where
  nodes : m.nodes.Related R.Node m'.nodes
  trees : m'.trees = m.trees
  processMap : m'.processMap = m.processMap
  log : R.log m.log m'.log

/-- Memories that are alike, and the same answer. -/
def Answer (R : Likeness) {α : Type} (a b : Mem × α) : Prop := R.Memory a.1 b.1 ∧ b.2 = a.2

variable {R : Likeness} {n n' : PerfNode} {m m' : Mem}

namespace Node

theorem childNodes (h : R.Node n n') : n'.childNodes = n.childNodes := by rw [h.rest]

theorem tree (h : R.Node n n') : n'.tree = n.tree := by rw [h.rest]

/-- An update that does not touch the figures. -/
theorem update (h : R.Node n n') (f : PerfNode → PerfNode) (hstats : ∀ n, (f n).stats = n.stats)
    (hrest : ∀ (n : PerfNode) stats, f { n with stats := stats } = { f n with stats := stats }) :
    R.Node (f n) (f n') := by
  refine ⟨?_, ?_⟩
  · rw [hstats, hstats]
    exact h.stats
  · rw [hstats n']
    exact (congrArg f h.rest).trans (hrest n n'.stats)

/-- An update of the figures only. -/
theorem measure (h : R.Node n n') (f g : TimingStats → TimingStats)
    (hfg : R.stats (f n.stats) (g n'.stats)) :
    R.Node { n with stats := f n.stats } { n' with stats := g n'.stats } := by
  refine ⟨hfg, ?_⟩
  rw [h.rest]

end Node

theorem node_root (R : Likeness) : R.Node .root .root := ⟨R.root, rfl⟩

theorem node_named (R : Likeness) (name : Name) : R.Node (.named name) (.named name) :=
  ⟨R.named name, rfl⟩

namespace Memory

theorem init (R : Likeness) : R.Memory .init .init := ⟨.empty, rfl, rfl, R.nil⟩

theorem next (h : R.Memory m m') : m'.nodes.next = m.nodes.next := h.nodes.next

theorem node (h : R.Memory m m') (p : NodePtr) : Outcomes R.Node (m.node p) (m'.node p) := by
  rw [Mem.node, Mem.node]
  have hp := h.nodes.get p
  generalize m.nodes.get p = o, m'.nodes.get p = o' at hp ⊢
  cases hp with
  | some hn => exact .ok hn
  | none => exact .error _

theorem tree (h : R.Memory m m') (t : TreePtr) : m'.tree t = m.tree t := by
  rw [Mem.tree, Mem.tree, h.trees]

theorem process (h : R.Memory m m') (pp : ProcPtr) : m'.process pp = m.process pp := by
  rw [Mem.process, Mem.process, h.processMap]

theorem modifyNode (h : R.Memory m m') (p : NodePtr) {f g : PerfNode → PerfNode}
    (hfg : ∀ n n', R.Node n n' → R.Node (f n) (g n')) :
    R.Memory (m.modifyNode p f) (m'.modifyNode p g) :=
  ⟨h.nodes.modify p hfg, h.trees, h.processMap, h.log⟩

theorem modifyTree (h : R.Memory m m') (t : TreePtr) (f : PerfTree → PerfTree) :
    R.Memory (m.modifyTree t f) (m'.modifyTree t f) := by
  refine ⟨h.nodes, ?_, h.processMap, h.log⟩
  rw [Mem.modifyTree_trees, Mem.modifyTree_trees, h.trees]

theorem modifyProcess (h : R.Memory m m') (pp : ProcPtr) (f : PerfProcess → PerfProcess) :
    R.Memory (m.modifyProcess pp f) (m'.modifyProcess pp f) := by
  refine ⟨h.nodes, h.trees, ?_, h.log⟩
  rw [Mem.modifyProcess_processMap, Mem.modifyProcess_processMap, h.processMap]

theorem heading (h : R.Memory m m') {line : Printed} (hline : line.isHeading = true) :
    R.Memory (m.print line) (m'.print line) :=
  ⟨h.nodes, h.trees, h.processMap, R.heading hline h.log⟩

theorem allocNode (h : R.Memory m m') (hn : R.Node n n') :
    R.Memory { m with nodes := m.nodes.alloc n } { m' with nodes := m'.nodes.alloc n' } :=
  ⟨h.nodes.alloc hn, h.trees, h.processMap, h.log⟩

theorem freeNode (h : R.Memory m m') (p : NodePtr) :
    R.Memory { m with nodes := m.nodes.free p } { m' with nodes := m'.nodes.free p } :=
  ⟨h.nodes.free p, h.trees, h.processMap, h.log⟩

theorem allocTree (h : R.Memory m m') (tree : PerfTree) :
    R.Memory { m with trees := m.trees.alloc tree } { m' with trees := m'.trees.alloc tree } :=
  ⟨h.nodes, congrArg (Store.alloc · tree) h.trees, h.processMap, h.log⟩

theorem freeTree (h : R.Memory m m') (t : TreePtr) :
    R.Memory { m with trees := m.trees.free t } { m' with trees := m'.trees.free t } :=
  ⟨h.nodes, congrArg (Store.free · t) h.trees, h.processMap, h.log⟩

theorem onProcessMap (h : R.Memory m m')
    (f : Std.ExtTreeMap pid_t PerfProcess → Std.ExtTreeMap pid_t PerfProcess) :
    R.Memory { m with processMap := f m.processMap } { m' with processMap := f m'.processMap } :=
  ⟨h.nodes, h.trees, congrArg f h.processMap, h.log⟩

end Memory
end Likeness

section Functions

variable {R : Likeness} {m m' : Mem}

/-! ## Nodes -/

theorem PerfTree.closeActiveNode_alike (h : R.Memory m m') (t : TreePtr) (p : NodePtr) :
    Outcomes R.Memory (PerfTree.closeActiveNode m t p) (PerfTree.closeActiveNode m' t p) := by
  rw [PerfTree.closeActiveNode, PerfTree.closeActiveNode, h.tree]
  refine .bind_same _ fun tree => ?_
  cases tree.activeNode with
  | nil => exact .error _
  | cons pTop rest =>
    dsimp only
    split
    · apply (h.node pTop).bind
      intro _ _ _
      apply (h.node p).bind
      intro _ _ _
      exact .ok h
    · exact .ok (h.modifyTree t _)

namespace PerfNode

theorem closeNode_alike (h : R.Memory m m') (p : NodePtr) :
    Outcomes R.Memory (closeNode m p) (closeNode m' p) := by
  rw [closeNode, closeNode]
  apply (h.node p).bind
  intro n n' hn
  rw [hn.tree]
  cases n.tree with
  | none => exact .ok h
  | some pTree => exact PerfTree.closeActiveNode_alike h pTree p

/-- Given that the two ways to count are alike. -/
theorem incrementData_alike (h : R.Memory m m') (p : NodePtr)
    {deltaTime userCPU systemCPU deltaTime' userCPU' systemCPU' : UInt64}
    (hcount : ∀ s s', R.stats s s' → R.stats (s.increment deltaTime userCPU systemCPU)
      (s'.increment deltaTime' userCPU' systemCPU')) :
    Outcomes R.Memory (incrementData m p deltaTime userCPU systemCPU)
      (incrementData m' p deltaTime' userCPU' systemCPU') := by
  rw [incrementData, incrementData]
  apply (h.node p).bind
  intro _ _ _
  refine .ok (h.modifyNode p fun n n' hn => ?_)
  exact hn.measure (·.increment deltaTime userCPU systemCPU)
    (·.increment deltaTime' userCPU' systemCPU') (hcount _ _ hn.stats)

theorem addChild_alike (h : R.Memory m m') (p : NodePtr) (name : Name) :
    Outcomes R.Answer (addChild m p name (construct name))
      (addChild m' p name (construct name)) := by
  rw [addChild, addChild]
  apply (h.node p).bind
  intro n n' hn
  rw [hn.childNodes]
  cases n.childNodes[name]? with
  | some pNode => exact .ok ⟨h, rfl⟩
  | none =>
    by_cases hname : name = []
    · rw [construct, if_pos hname]
      exact .error _
    · rw [h.next, construct, if_neg hname]
      refine .ok ⟨(h.allocNode (R.node_named name)).modifyNode p fun n n' hn => ?_, rfl⟩
      exact hn.update (fun n => { n with childNodes := n.childNodes.insert _ _ }) (fun _ => rfl)
        fun _ _ => rfl

theorem reportDataNested_alike (bShowOnlyDelta : Bool) (fuel : Nat) (h : R.Memory m m')
    (p : NodePtr) (nLevel : UInt32) :
    Outcomes R.Memory (reportDataNested bShowOnlyDelta fuel m p nLevel)
      (reportDataNested bShowOnlyDelta fuel m' p nLevel) := by
  induction fuel generalizing m m' p nLevel with
  | zero => exact .error _
  | succ fuel ih =>
    rw [reportDataNested, reportDataNested]
    apply (h.node p).bind
    intro n n' hn
    rw [hn.childNodes]
    have hline : R.Memory
        (m.print (if bShowOnlyDelta then .delta nLevel n.stats.elementName n.stats.nLastDelta
          else .totals nLevel n.stats))
        (m'.print (if bShowOnlyDelta then .delta nLevel n'.stats.elementName n'.stats.nLastDelta
          else .totals nLevel n'.stats)) := by
      refine ⟨h.nodes, h.trees, h.processMap, ?_⟩
      cases bShowOnlyDelta with
      | true => exact R.delta nLevel hn.stats h.log
      | false => exact R.totals nLevel hn.stats h.log
    apply Outcomes.bind (Outcomes.foldlM (R := R.Memory)
      (fun _ _ entry h => ih h entry.2 (nLevel + 1)) _ hline)
    intro m₁ m₁' h₁
    cases bShowOnlyDelta with
    | true => exact .ok h₁
    | false =>
      refine .ok (h₁.modifyNode p fun n n' hn => ?_)
      exact hn.measure TimingStats.resetInterval TimingStats.resetInterval (R.resetInterval hn.stats)

theorem reportData_alike (h : R.Memory m m') (p : NodePtr) (nLevel : UInt32)
    (bShowOnlyDelta : Bool) : Outcomes R.Memory (reportData m p nLevel bShowOnlyDelta)
      (reportData m' p nLevel bShowOnlyDelta) := by
  rw [reportData, reportData, h.next]
  exact reportDataNested_alike bShowOnlyDelta _ h p nLevel

theorem deleteNested_alike (fuel : Nat) (h : R.Memory m m') (p : NodePtr) :
    Outcomes R.Memory (deleteNested fuel m p) (deleteNested fuel m' p) := by
  induction fuel generalizing m m' p with
  | zero => exact .error _
  | succ fuel ih =>
    rw [deleteNested, deleteNested]
    apply (h.node p).bind
    intro n n' hn
    rw [hn.childNodes]
    apply (Outcomes.foldlM (R := R.Memory) (fun _ _ entry h => ih h entry.2) _ h).bind
    intro m₁ m₁' h₁
    exact .ok (h₁.freeNode p)

theorem delete_alike (h : R.Memory m m') (p : NodePtr) :
    Outcomes R.Memory (delete m p) (delete m' p) := by
  rw [delete, delete, h.next]
  exact deleteNested_alike _ h p

end PerfNode

/-! ## Trees -/

namespace PerfTree

theorem topOrRoot_alike (h : R.Memory m m') (t : TreePtr)
    (name : PerfTree → Except Fault PerfTree) :
    Outcomes R.Answer (topOrRoot m t name) (topOrRoot m' t name) := by
  rw [topOrRoot, topOrRoot, h.tree, h.next]
  refine .bind_same _ fun tree => ?_
  cases tree.activeNode with
  | cons pTop rest => exact .ok ⟨h, rfl⟩
  | nil =>
    refine .bind_same _ fun tree' => ?_
    exact .ok ⟨(h.allocNode R.node_root).modifyTree t _, rfl⟩

theorem pushNode_alike (h : R.Memory m m') (t : TreePtr) (p : NodePtr) :
    R.Memory (pushNode m t p) (pushNode m' t p) := by
  refine (h.modifyTree t _).modifyNode p fun n n' hn => ?_
  exact hn.update (·.setTree t) (fun _ => rfl) fun _ _ => rfl

/-- Two records of one name get the same node, and only learn that. -/
theorem addNodeRecord_alike (h : R.Memory m m') (t : TreePtr) {record record' : PerfRecord}
    (hname : record'.elementName = record.elementName) (caller : Caller) :
    Outcomes (fun a b => R.Memory a.1 b.1 ∧
        a.2.1 = { record with nodeInTree := some a.2.2 } ∧
        b.2.1 = { record' with nodeInTree := some a.2.2 })
      (addNodeRecord m t record caller) (addNodeRecord m' t record' caller) := by
  rw [addNodeRecord, addNodeRecord]
  apply (topOrRoot_alike h t _).bind
  rintro ⟨m₁, _⟩ ⟨m₁', pTop⟩ ⟨h₁, rfl⟩
  have hchild : Outcomes (fun a b => R.Memory a.1 b.1 ∧
      a.2.1 = { record with nodeInTree := some a.2.2 } ∧
      b.2 = ({ record' with nodeInTree := some a.2.2 }, a.2.2))
      (PerfNode.addChildRecord m₁ pTop record) (PerfNode.addChildRecord m₁' pTop record') := by
    rw [PerfNode.addChildRecord, PerfNode.addChildRecord, PerfNode.ofRecord, PerfNode.ofRecord, hname]
    apply (PerfNode.addChild_alike h₁ pTop record.elementName).bind
    rintro ⟨m₂, _⟩ ⟨m₂', pNode⟩ ⟨h₂, rfl⟩
    exact .ok ⟨h₂, rfl, rfl⟩
  apply hchild.bind
  rintro ⟨m₂, added, pNode⟩ ⟨m₂', added', pNode'⟩ ⟨h₂, hadded, hadded'⟩
  obtain ⟨hrecord, rfl⟩ := Prod.mk.inj hadded'
  exact .ok ⟨pushNode_alike h₂ t _, hadded, hrecord⟩

theorem isInactive_alike (h : R.Memory m m') (t : TreePtr) : isInactive m' t = isInactive m t := by
  rw [isInactive, isInactive, h.tree]

theorem reportData_alike (h : R.Memory m m') (t : TreePtr) (msIntervalTime : UInt32) :
    Outcomes R.Memory (reportData m t msIntervalTime) (reportData m' t msIntervalTime) := by
  rw [reportData, reportData, h.tree]
  refine .bind_same _ fun tree => ?_
  cases tree.rootNode with
  | none => exact .error _
  | some pRoot =>
    apply (PerfNode.reportData_alike (h.heading rfl) pRoot 0 false).bind
    intro m₁ m₁' h₁
    exact .ok (h₁.modifyTree t _)

theorem delete_alike (h : R.Memory m m') (t : TreePtr) :
    Outcomes R.Memory (delete m t) (delete m' t) := by
  rw [delete, delete, h.tree]
  refine .bind_same _ fun tree => ?_
  cases tree.rootNode with
  | none => exact .ok (h.freeTree t)
  | some pRoot =>
    apply (PerfNode.delete_alike h pRoot).bind
    intro m₁ m₁' h₁
    exact .ok (h₁.freeTree t)

end PerfTree

/-! ## Processes -/

namespace PerfProcess

theorem getTree_alike (h : R.Memory m m') (pID : pid_t) (tID : pthread_t) :
    getTree m' pID tID = getTree m pID tID := by
  rw [getTree, getTree, h.process]
  simp only [h.tree]

theorem showTrees_alike (h : R.Memory m m') (pID : pid_t) :
    showTrees m' pID = showTrees m pID := by
  have hshow : ∀ t, showTree m' t = showTree m t := by
    intro t
    rw [showTree, showTree, h.tree]
    cases m.tree t with
    | error e => rfl
    | ok tree =>
      simp only [ok_bind]
      cases tree.activeNode with
      | nil => rfl
      | cons pTop rest =>
        dsimp only
        have htop := h.node pTop
        generalize m.node pTop = x, m'.node pTop = x' at htop ⊢
        cases htop with
        | ok hn => rfl
        | error e => rfl
  rw [showTrees, showTrees, h.process]
  simp only [hshow]

theorem newTree_alike (h : R.Memory m m') (pID : pid_t) (tID : pthread_t) {env env' : Env}
    (hmarker : env'.marker = env.marker) :
    Outcomes R.Answer (newTree m pID tID env) (newTree m' pID tID env') := by
  rw [newTree, newTree, h.process, hmarker]
  let mark (p : PerfProcess) : PerfProcess := { p with clock := p.clock.now .marker env.marker }
  refine .bind_same _ fun proc => ?_
  cases proc.mapThreads[tID]? with
  | none =>
    have hnext : m'.trees.next = m.trees.next := congrArg Store.next h.trees
    simp only [hnext]
    let register (p : PerfProcess) : PerfProcess :=
      { p with mapThreads := p.mapThreads.insert tID m.trees.next }
    exact .ok ⟨((h.allocTree {}).modifyProcess pID register).modifyProcess pID mark, rfl⟩
  | some pTree =>
    dsimp only
    rw [h.tree]
    cases m.tree pTree with
    | error e => exact .error e
    | ok tree => exact .ok ⟨h.modifyProcess pID mark, rfl⟩

theorem removeTree_alike (h : R.Memory m m') (pID : pid_t) (tID : pthread_t) :
    Outcomes R.Answer (removeTree m pID tID) (removeTree m' pID tID) := by
  rw [removeTree, removeTree, h.process]
  refine .bind_same _ fun proc => ?_
  cases proc.mapThreads[tID]? with
  | none => exact .ok ⟨h, rfl⟩
  | some pTree =>
    apply (PerfTree.delete_alike h pTree).bind
    intro m₁ m₁' h₁
    exact .ok ⟨h₁.modifyProcess pID _, rfl⟩

theorem closeInactiveThreads_alike (h : R.Memory m m') (pID : pid_t) :
    Outcomes R.Answer (closeInactiveThreads m pID) (closeInactiveThreads m' pID) := by
  rw [closeInactiveThreads, closeInactiveThreads, h.process]
  refine .bind_same _ fun proc => ?_
  refine Outcomes.foldlM (R := R.Answer) ?_ _ ⟨h, rfl⟩
  rintro ⟨m₁, b⟩ ⟨m₁', _⟩ entry ⟨h₁, rfl⟩
  rw [closeIfInactive, closeIfInactive, PerfTree.isInactive_alike h₁]
  refine .bind_same _ fun inactive => ?_
  cases inactive with
  | false => exact .ok ⟨h₁, rfl⟩
  | true =>
    apply (PerfTree.delete_alike h₁ entry.2).bind
    intro m₂ m₂' h₂
    exact .ok ⟨h₂.modifyProcess pID _, rfl⟩

theorem reportData_alike (h : R.Memory m m') (pID : pid_t) (env : Env) :
    Outcomes R.Memory (reportData m pID env) (reportData m' pID env) := by
  rw [reportData, reportData, h.process]
  refine .bind_same _ fun proc => ?_
  dsimp only
  split
  · exact .ok (h.heading rfl)
  · refine Outcomes.foldlM (R := R.Memory) ?_ _ (((h.heading rfl).heading rfl).modifyProcess pID _)
    intro m₁ m₁' entry h₁
    exact PerfTree.reportData_alike h₁ entry.2 _

theorem deleteTrees_alike (h : R.Memory m m') (pID : pid_t) :
    Outcomes R.Memory (deleteTrees m pID) (deleteTrees m' pID) := by
  rw [deleteTrees, deleteTrees, h.process]
  refine .bind_same _ fun proc => ?_
  exact .foldlM (fun _ _ entry h => PerfTree.delete_alike h entry.2) _ h

end PerfProcess

theorem RDKPerf_FindProcess_alike (h : R.Memory m m') (pID : pid_t) :
    RDKPerf_FindProcess m' pID = RDKPerf_FindProcess m pID := by
  rw [RDKPerf_FindProcess, RDKPerf_FindProcess, h.processMap]

theorem RDKPerf_InsertProcess_alike (h : R.Memory m m') (pID : pid_t) :
    R.Memory (RDKPerf_InsertProcess m pID) (RDKPerf_InsertProcess m' pID) :=
  h.onProcessMap (·.insertIfNew pID { idProcess := pID })

theorem RDKPerf_RemoveProcess_alike (h : R.Memory m m') (pID : pid_t) :
    Outcomes R.Memory (RDKPerf_RemoveProcess m pID) (RDKPerf_RemoveProcess m' pID) := by
  rw [RDKPerf_RemoveProcess, RDKPerf_RemoveProcess, RDKPerf_FindProcess_alike h]
  cases RDKPerf_FindProcess m pID with
  | none => exact .ok h
  | some pProcess =>
    apply (PerfProcess.deleteTrees_alike h pProcess).bind
    intro m₁ m₁' h₁
    exact .ok (h₁.onProcessMap (·.erase pID))

/-! ## The control calls -/

namespace InProc

theorem reportProcess_alike (h : R.Memory m m') (pID : pid_t) (env : Env) :
    Outcomes R.Memory (RDKPerf_ReportProcess m pID env) (RDKPerf_ReportProcess m' pID env) := by
  rw [RDKPerf_ReportProcess, RDKPerf_ReportProcess, RDKPerf_FindProcess_alike h]
  cases RDKPerf_FindProcess m pID with
  | none => exact .ok h
  | some pProcess =>
    dsimp only
    rw [PerfProcess.showTrees_alike h]
    refine .bind_same _ fun _ => ?_
    apply (PerfProcess.closeInactiveThreads_alike h pProcess).bind
    rintro ⟨m₁, b⟩ ⟨m₁', _⟩ ⟨h₁, rfl⟩
    exact PerfProcess.reportData_alike h₁ pProcess env

theorem reportThread_alike (h : R.Memory m m') (self : pid_t) (tID : pthread_t) :
    Outcomes R.Memory (RDKPerf_ReportThread m self tID) (RDKPerf_ReportThread m' self tID) := by
  rw [RDKPerf_ReportThread, RDKPerf_ReportThread, RDKPerf_FindProcess_alike h]
  cases RDKPerf_FindProcess m self with
  | none => exact .error _
  | some pProcess =>
    dsimp only
    rw [PerfProcess.getTree_alike h]
    refine .bind_same _ fun pTree => ?_
    cases pTree with
    | none => exact .ok h
    | some pTree => exact PerfTree.reportData_alike h pTree 0

theorem closeThread_alike (h : R.Memory m m') (self : pid_t) (tID : pthread_t) :
    Outcomes R.Memory (RDKPerf_CloseThread m self tID) (RDKPerf_CloseThread m' self tID) := by
  rw [RDKPerf_CloseThread, RDKPerf_CloseThread, RDKPerf_FindProcess_alike h]
  cases RDKPerf_FindProcess m self with
  | none => exact .ok h
  | some pProcess =>
    dsimp only
    rw [map_eq_pure_bind, map_eq_pure_bind]
    apply (PerfProcess.removeTree_alike h pProcess tID).bind
    rintro ⟨m₁, b⟩ ⟨m₁', b'⟩ ⟨h₁, -⟩
    exact .ok h₁

end InProc
end Functions
end RdkPerf

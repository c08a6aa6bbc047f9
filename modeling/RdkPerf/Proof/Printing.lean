import RdkPerf.Model.Api
import RdkPerf.Proof.Entry

/-!
# What the operations print

Only the reports print, and the destructor where a threshold was exceeded. Everything else leaves
the log as it is, the handlers of the three messages of a call included. What works on one tree
leaves the process map as it is too (`TreesOnly`).
-/

namespace RdkPerf

open Lib

variable {m m' : Mem} {pID : pid_t} {tID : pthread_t} {t : TreePtr} {p pNode : NodePtr}
  {env : Env}

/-! ## What writes nodes and trees only -/

/-- Neither the log nor the process map is written. -/
structure TreesOnly (m m' : Mem) : Prop where
  log : m'.log = m.log
  processMap : m'.processMap = m.processMap

theorem TreesOnly.refl (m : Mem) : TreesOnly m m := ⟨rfl, rfl⟩

theorem TreesOnly.trans {m₁ : Mem} (h : TreesOnly m m₁) (h₁ : TreesOnly m₁ m') : TreesOnly m m' :=
  ⟨h₁.log.trans h.log, h₁.processMap.trans h.processMap⟩

theorem PerfNode.incrementData_treesOnly {d user system : UInt64}
    (h : PerfNode.incrementData m p d user system = .ok m') : TreesOnly m m' := by
  obtain ⟨n, -, h⟩ := bind_eq_ok.mp h
  obtain rfl := Except.ok.inj h
  exact ⟨rfl, rfl⟩

theorem PerfNode.closeNode_treesOnly (h : PerfNode.closeNode m p = .ok m') : TreesOnly m m' := by
  obtain ⟨n, -, h⟩ := bind_eq_ok.mp h
  cases ht : n.tree with
  | none =>
    rw [ht] at h
    obtain rfl := Except.ok.inj h
    exact .refl m
  | some pTree =>
    rw [ht] at h
    obtain ⟨tree, -, h⟩ := bind_eq_ok.mp h
    cases hs : tree.activeNode with
    | nil => simp [hs] at h
    | cons pTop rest =>
      simp only [hs] at h
      split at h
      · obtain ⟨_, -, h⟩ := bind_eq_ok.mp h
        obtain ⟨_, -, h⟩ := bind_eq_ok.mp h
        obtain rfl := Except.ok.inj h
        exact ⟨rfl, rfl⟩
      · obtain rfl := Except.ok.inj h
        exact ⟨rfl, rfl⟩

theorem PerfNode.addChild_treesOnly {name : Name} {new : Except Fault PerfNode}
    (h : PerfNode.addChild m p name new = .ok (m', pNode)) : TreesOnly m m' := by
  obtain ⟨n, -, h⟩ := bind_eq_ok.mp h
  split at h
  · obtain ⟨rfl, -⟩ := Prod.mk.inj (Except.ok.inj h)
    exact .refl m
  · obtain ⟨child, -, h⟩ := bind_eq_ok.mp h
    obtain ⟨rfl, -⟩ := Prod.mk.inj (Except.ok.inj h)
    exact ⟨rfl, rfl⟩

theorem PerfTree.topOrRoot_treesOnly {name : PerfTree → Except Fault PerfTree}
    (h : PerfTree.topOrRoot m t name = .ok (m', pNode)) : TreesOnly m m' := by
  obtain ⟨tree, -, h⟩ := bind_eq_ok.mp h
  cases hs : tree.activeNode with
  | cons pTop rest =>
    simp only [hs] at h
    obtain ⟨rfl, -⟩ := Prod.mk.inj (Except.ok.inj h)
    exact .refl m
  | nil =>
    simp only [hs] at h
    obtain ⟨tree', -, h⟩ := bind_eq_ok.mp h
    obtain ⟨rfl, -⟩ := Prod.mk.inj (Except.ok.inj h)
    exact ⟨rfl, rfl⟩

theorem PerfTree.addNodeEntry_treesOnly {szName szThreadName : Option Name}
    (h : PerfTree.addNodeEntry m t szName tID szThreadName = .ok (m', pNode)) :
    TreesOnly m m' := by
  obtain ⟨⟨m₁, pTop⟩, htop, h⟩ := bind_eq_ok.mp h
  cases szName with
  | none => exact absurd h (by simp)
  | some szName =>
    obtain ⟨⟨m₂, pNode₂⟩, hadd, h⟩ := bind_eq_ok.mp h
    obtain ⟨rfl, -⟩ := Prod.mk.inj (Except.ok.inj h)
    have hadded : TreesOnly m m₂ :=
      (topOrRoot_treesOnly htop).trans (PerfNode.addChild_treesOnly hadd)
    exact ⟨hadded.log, hadded.processMap⟩

theorem PerfTree.addNodeRecord_treesOnly {record record' : PerfRecord} {caller : Caller}
    (h : PerfTree.addNodeRecord m t record caller = .ok (m', record', pNode)) :
    TreesOnly m m' := by
  obtain ⟨⟨m₁, pTop⟩, htop, h⟩ := bind_eq_ok.mp h
  obtain ⟨⟨m₂, record₂, pNode₂⟩, hadd, h⟩ := bind_eq_ok.mp h
  obtain ⟨rfl, -⟩ := Prod.mk.inj (Except.ok.inj h)
  obtain ⟨⟨m₃, pNode₃⟩, hchild, h₃⟩ := bind_eq_ok.mp hadd
  obtain ⟨rfl, -⟩ := Prod.mk.inj (Except.ok.inj h₃)
  have hadded : TreesOnly m m₃ :=
    (topOrRoot_treesOnly htop).trans (PerfNode.addChild_treesOnly hchild)
  exact ⟨hadded.log, hadded.processMap⟩

theorem PerfNode.deleteNested_treesOnly {fuel : Nat}
    (h : PerfNode.deleteNested fuel m p = .ok m') : TreesOnly m m' := by
  induction fuel generalizing m m' p with
  | zero => exact absurd h (by simp [PerfNode.deleteNested])
  | succ fuel ih =>
    obtain ⟨n, -, h⟩ := bind_eq_ok.mp h
    obtain ⟨m₁, hm₁, hm'⟩ := bind_eq_ok.mp h
    obtain rfl := Except.ok.inj hm'
    have hbelow : TreesOnly m m₁ :=
      foldlM_inv (fun _ _ _ _ hI hs => hI.trans (ih hs)) (.refl m) hm₁
    exact ⟨hbelow.log, hbelow.processMap⟩

theorem PerfTree.delete_treesOnly (h : PerfTree.delete m t = .ok m') : TreesOnly m m' := by
  obtain ⟨tree, -, h⟩ := bind_eq_ok.mp h
  cases hroot : tree.rootNode with
  | none =>
    rw [hroot] at h
    obtain rfl := Except.ok.inj h
    exact ⟨rfl, rfl⟩
  | some pRoot =>
    rw [hroot] at h
    obtain ⟨m₁, hm₁, hm'⟩ := bind_eq_ok.mp h
    obtain rfl := Except.ok.inj hm'
    have hnodes := PerfNode.deleteNested_treesOnly hm₁
    exact ⟨hnodes.log, hnodes.processMap⟩

/-! ## What prints nothing -/

theorem PerfProcess.newTree_log {pTree : Option TreePtr}
    (h : PerfProcess.newTree m pID tID env = .ok (m', pTree)) : m'.log = m.log := by
  obtain ⟨proc, -, h⟩ := bind_eq_ok.mp h
  cases ht : proc.mapThreads[tID]? with
  | none =>
    simp only [ht] at h
    obtain ⟨rfl, -⟩ := Prod.mk.inj (Except.ok.inj h)
    rfl
  | some pTree =>
    simp only [ht] at h
    obtain ⟨_, -, h⟩ := bind_eq_ok.mp h
    obtain ⟨rfl, -⟩ := Prod.mk.inj (Except.ok.inj h)
    rfl

/-- **The rule for the removal of inactive trees**: each is deleted and forgotten. -/
theorem PerfProcess.closeInactiveThreads_inv {I : Mem → Prop} {b : Bool}
    (hdelete : ∀ {m m₁ t}, PerfTree.delete m t = .ok m₁ → I m → I m₁)
    (herase : ∀ m tID, I m →
      I (m.modifyProcess pID fun p => { p with mapThreads := p.mapThreads.erase tID }))
    (h : PerfProcess.closeInactiveThreads m pID = .ok (m', b)) (hI : I m) : I m' := by
  obtain ⟨proc, -, h⟩ := bind_eq_ok.mp h
  refine foldlM_inv (I := fun s : Mem × Bool => I s.1) ?_ hI h
  intro s e s' _ hI hs
  obtain ⟨inactive, -, hs⟩ := bind_eq_ok.mp hs
  cases inactive with
  | false => exact (Except.ok.inj hs) ▸ hI
  | true =>
    obtain ⟨m₁, hm₁, hs'⟩ := bind_eq_ok.mp hs
    obtain rfl := Except.ok.inj hs'
    exact herase m₁ e.1 (hdelete hm₁ hI)

theorem PerfProcess.closeInactiveThreads_log {b : Bool}
    (h : PerfProcess.closeInactiveThreads m pID = .ok (m', b)) : m'.log = m.log := by
  refine closeInactiveThreads_inv (I := fun m₁ => m₁.log = m.log) ?_ ?_ h rfl
  · intro m₁ m₂ t hdelete hI
    exact (PerfTree.delete_treesOnly hdelete).log.trans hI
  · intro m₁ tID hI
    exact hI

/-! ## The calls in the service -/

theorem Service.getTree_log {bCreate : Bool} {pTree : Option TreePtr}
    (h : Service.getTree m pID tID bCreate env = .ok (m', pTree)) : m'.log = m.log := by
  have hsearch : ∀ (m₁ : Mem) (pProcess : ProcPtr),
      getTreeIn m₁ pProcess tID bCreate env = .ok (m', pTree) → m'.log = m₁.log := by
    intro m₁ pProcess h
    obtain ⟨found, -, h⟩ := bind_eq_ok.mp h
    cases found with
    | some pTree =>
      obtain ⟨rfl, -⟩ := Prod.mk.inj (Except.ok.inj h)
      rfl
    | none =>
      dsimp only at h
      split at h
      · exact PerfProcess.newTree_log h
      · obtain ⟨rfl, -⟩ := Prod.mk.inj (Except.ok.inj h)
        rfl
  cases hfind : RDKPerf_FindProcess m pID with
  | some pProcess =>
    rw [getTree_found hfind] at h
    exact hsearch m pProcess h
  | none =>
    cases bCreate with
    | true =>
      rw [getTree_inserted hfind] at h
      exact hsearch (RDKPerf_InsertProcess m pID) pID h
    | false =>
      rw [getTree_missed hfind] at h
      obtain ⟨rfl, -⟩ := Prod.mk.inj (Except.ok.inj h)
      rfl

theorem Service.handleEntry_log {msg : EntryMessage} {b : Bool}
    (h : Service.handleEntry m msg env = .ok (m', b)) : m'.log = m.log := by
  obtain ⟨⟨m₁, pTree⟩, hget, h⟩ := bind_eq_ok.mp h
  cases pTree with
  | none =>
    obtain ⟨rfl, -⟩ := Prod.mk.inj (Except.ok.inj h)
    exact getTree_log hget
  | some t =>
    obtain ⟨⟨m₂, pNode⟩, hadd, h⟩ := bind_eq_ok.mp h
    have hlog := (PerfTree.addNodeEntry_treesOnly hadd).log.trans (getTree_log hget)
    dsimp only at h
    split at h
    · obtain ⟨rfl, -⟩ := Prod.mk.inj (Except.ok.inj h)
      exact hlog
    · obtain ⟨rfl, -⟩ := Prod.mk.inj (Except.ok.inj h)
      exact hlog

theorem Service.handleThreshold_log {msg : ThresholdMessage} {b : Bool}
    (h : Service.handleThreshold m msg env = .ok (m', b)) : m'.log = m.log := by
  obtain ⟨⟨m₁, pTree⟩, hget, h⟩ := bind_eq_ok.mp h
  have hlog := getTree_log hget
  cases pTree with
  | none =>
    obtain ⟨rfl, -⟩ := Prod.mk.inj (Except.ok.inj h)
    exact hlog
  | some t =>
    obtain ⟨pNode, -, h⟩ := bind_eq_ok.mp h
    split at h
    · obtain ⟨_, -, h⟩ := bind_eq_ok.mp h
      obtain ⟨rfl, -⟩ := Prod.mk.inj (Except.ok.inj h)
      exact hlog
    · obtain ⟨rfl, -⟩ := Prod.mk.inj (Except.ok.inj h)
      exact hlog

theorem Service.handleExit_log {msg : ExitMessage} {b : Bool}
    (h : Service.handleExit m msg env = .ok (m', b)) : m'.log = m.log := by
  obtain ⟨⟨m₁, pTree⟩, hget, h⟩ := bind_eq_ok.mp h
  have hlog := getTree_log hget
  cases pTree with
  | none =>
    obtain ⟨rfl, -⟩ := Prod.mk.inj (Except.ok.inj h)
    exact hlog
  | some t =>
    obtain ⟨pNode, -, h⟩ := bind_eq_ok.mp h
    obtain ⟨node, -, h⟩ := bind_eq_ok.mp h
    cases hname : msg.szName with
    | none => simp [hname] at h
    | some szName =>
      simp only [hname] at h
      split at h
      · obtain ⟨m₂, hinc, h⟩ := bind_eq_ok.mp h
        obtain ⟨m₃, hclose, h⟩ := bind_eq_ok.mp h
        obtain ⟨rfl, -⟩ := Prod.mk.inj (Except.ok.inj h)
        have hclosed :=
          (PerfNode.incrementData_treesOnly hinc).trans (PerfNode.closeNode_treesOnly hclose)
        exact hclosed.log.trans hlog
      · obtain ⟨rfl, -⟩ := Prod.mk.inj (Except.ok.inj h)
        exact hlog

/-! ## What prints -/

/-- **The rule for reports**: what the lines and the resets keep, a report keeps. -/
theorem PerfNode.reportDataNested_inv {I : Mem → Prop} {b : Bool} {fuel : Nat} {nLevel : UInt32}
    (hprint : ∀ m nLevel (stats : TimingStats), I m → I (m.print <|
      if b then .delta nLevel stats.elementName stats.nLastDelta else .totals nLevel stats))
    (hreset : ∀ m q, I m → I (PerfNode.resetInterval m q))
    (h : PerfNode.reportDataNested b fuel m p nLevel = .ok m') (hI : I m) : I m' := by
  induction fuel generalizing m m' p nLevel with
  | zero => exact absurd h (by simp [PerfNode.reportDataNested])
  | succ fuel ih =>
    obtain ⟨n, -, h⟩ := bind_eq_ok.mp h
    obtain ⟨m₁, hm₁, h⟩ := bind_eq_ok.mp h
    have hbelow : I m₁ :=
      foldlM_inv (fun _ _ _ _ hI hs => ih hs hI) (hprint m nLevel n.stats hI) hm₁
    obtain rfl := Except.ok.inj h
    cases b with
    | true => exact hbelow
    | false => exact hreset m₁ p hbelow

/-- A report only adds to the log. -/
theorem PerfNode.reportDataNested_log {b : Bool} {fuel : Nat} {nLevel : UInt32}
    (h : PerfNode.reportDataNested b fuel m p nLevel = .ok m') : m.log <+: m'.log := by
  refine reportDataNested_inv (I := fun m₁ => m.log <+: m₁.log) ?_ ?_ h List.prefix_rfl
  · intro m₁ nLevel stats hI
    exact hI.trans (List.prefix_append _ _)
  · intro m₁ q hI
    exact hI

/-- And only nodes are reset. -/
theorem PerfNode.reportDataNested_processMap {b : Bool} {fuel : Nat} {nLevel : UInt32}
    (h : PerfNode.reportDataNested b fuel m p nLevel = .ok m') : m'.processMap = m.processMap :=
  reportDataNested_inv (I := fun m₁ => m₁.processMap = m.processMap) (fun _ _ _ hI => hI)
    (fun _ _ hI => hI) h rfl

/-- The destructor prints the threshold line first, if it prints. -/
theorem PerfRecord.destruct_log {this : PerfRecord} (h : this.destruct m env = .ok m') :
    (this.exceeded (env.timeStamp - this.startTime) = true ∧ ∃ stats,
      m.log ++ [.threshold this.elementName this.thresholdInUS
        (env.timeStamp - this.startTime) stats] <+: m'.log) ∨
    (this.exceeded (env.timeStamp - this.startTime) = false ∧ m'.log = m.log) := by
  unfold PerfRecord.destruct at h
  cases hnode : this.nodeInTree with
  | none => simp [hnode] at h
  | some pNode =>
    simp only [hnode] at h
    obtain ⟨m₁, hinc, h⟩ := bind_eq_ok.mp h
    obtain ⟨m₂, hclose, h⟩ := bind_eq_ok.mp h
    have hlog := ((PerfNode.incrementData_treesOnly hinc).trans
      (PerfNode.closeNode_treesOnly hclose)).log
    split at h
    · next hex =>
      obtain ⟨node, -, h⟩ := bind_eq_ok.mp h
      refine Or.inl ⟨hex, node.stats, ?_⟩
      rw [← hlog]
      exact PerfNode.reportDataNested_log h
    · next hex =>
      obtain rfl := Except.ok.inj h
      exact Or.inr ⟨Bool.eq_false_iff.mpr hex, hlog⟩

/-- Two logs that go on differently are different logs. -/
theorem line_eq_of_extends {log log' : List Printed} {line line' : Printed}
    (h : log ++ [line] <+: log') (h' : log ++ [line'] <+: log') : line = line' := by
  obtain ⟨rest, hrest⟩ := h
  obtain ⟨rest', hrest'⟩ := h'
  rw [← hrest', List.append_assoc, List.append_assoc] at hrest
  exact (List.cons.inj (List.append_cancel_left hrest)).1

theorem not_extends_self {log : List Printed} {line : Printed} : ¬ log ++ [line] <+: log := by
  intro h
  have hlen := h.length_le
  simp at hlen

end RdkPerf

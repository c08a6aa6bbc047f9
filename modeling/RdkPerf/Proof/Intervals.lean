import RdkPerf.Lib.Extremes
import RdkPerf.Proof.DeepReports
import RdkPerf.Proof.Entry
import RdkPerf.Spec.Nesting

/-!
# Intervals add up to totals

A node keeps each figure twice, since it was created and since it was last printed. The two agree
in the sense of `Adds`: a total is what the reports printed of the node's intervals, and the
interval that runs now. `TreeRun` is any sequence of calls on one tree, with the memories its full
reports started from; what a report printed of a node is read off these.
-/

namespace RdkPerf

open Lib

/-- A node of the tree at `t`. -/
def InTree (m : Mem) (t : TreePtr) (p : NodePtr) : Prop :=
  ∃ tree r, m.trees.get t = some tree ∧ tree.rootNode = some r ∧ Reaches (childOf m) r p

/-- A tree from its creation on, and the memories its full reports found. -/
inductive TreeRun (t : TreePtr) : Mem → List Mem → Prop where
  | new (m₀ : Mem) (ht : m₀.trees.next = t) :
      TreeRun t { m₀ with trees := m₀.trees.alloc {} } []
  | addRecord {m m' reports} (h : TreeRun t m reports) (pRecord pRecord' : PerfRecord)
      (caller : Caller) (pNode : NodePtr)
      (hrun : PerfTree.addNodeRecord m t pRecord caller = .ok (m', pRecord', pNode)) :
      TreeRun t m' reports
  | addEntry {m m' reports} (h : TreeRun t m reports) (szName : Option Name) (tID : pthread_t)
      (szThreadName : Option Name) (pNode : NodePtr)
      (hrun : PerfTree.addNodeEntry m t szName tID szThreadName = .ok (m', pNode)) :
      TreeRun t m' reports
  | close {m m' reports p} (h : TreeRun t m reports) (hp : InTree m t p)
      (hrun : PerfNode.closeNode m p = .ok m') : TreeRun t m' reports
  | increment {m m' reports p} (h : TreeRun t m reports) (hp : InTree m t p)
      (deltaTime userCPU systemCPU : UInt64)
      (hrun : PerfNode.incrementData m p deltaTime userCPU systemCPU = .ok m') :
      TreeRun t m' reports
  | report {m m' reports} (h : TreeRun t m reports) (msIntervalTime : UInt32)
      (hrun : PerfTree.reportData m t msIntervalTime = .ok m') : TreeRun t m' (reports ++ [m])
  | reportDelta {m m' reports p} (h : TreeRun t m reports) (hp : InTree m t p) (nLevel : UInt32)
      (hrun : PerfNode.reportData m p nLevel true = .ok m') : TreeRun t m' reports

variable {t : TreePtr} {r p : NodePtr} {m m' : Mem} {reports : List Mem} {ct : CallTree}

/-- The statistics of a node, as the full reports since its creation found them. -/
def printedAt (reports : List Mem) (p : NodePtr) : List TimingStats :=
  reports.filterMap fun m => (m.nodes.get p).map (·.stats)

/-- The totals are the intervals printed, and the present one: sums as the counters count, extremes
    as numbers. -/
structure Adds (printed : List TimingStats) (s : TimingStats) : Prop where
  count : s.nTotalCount = (printed.map (·.nIntervalCount)).sum + s.nIntervalCount
  time : s.nTotalTime = (printed.map (·.nIntervalTime)).sum + s.nIntervalTime
  max : s.nTotalMax.toNat =
    (printed.map (·.nIntervalMax.toNat)).foldr max s.nIntervalMax.toNat
  min : s.nTotalMin.toNat =
    (printed.map (·.nIntervalMin.toNat)).foldr min s.nIntervalMin.toNat

/-! ## The statistics of one node -/

section Stats

variable {printed : List TimingStats} {s : TimingStats}

/-- The comparisons of `IncrementData` take the greater and the lesser value. -/
theorem toNat_ite_max (a d : UInt64) : (if a < d then d else a).toNat = max a.toNat d.toNat := by
  split
  · next h =>
    have hle : a.toNat ≤ d.toNat := UInt64.le_of_lt h
    rw [Nat.max_eq_right hle]
  · next h =>
    have hle : d.toNat ≤ a.toNat := UInt64.not_lt.mp h
    rw [Nat.max_eq_left hle]

theorem toNat_ite_min (a d : UInt64) : (if a > d then d else a).toNat = min a.toNat d.toNat := by
  split
  · next h =>
    have hle : d.toNat ≤ a.toNat := UInt64.le_of_lt h
    rw [Nat.min_eq_right hle]
  · next h =>
    have hle : a.toNat ≤ d.toNat := UInt64.not_lt.mp h
    rw [Nat.min_eq_left hle]

theorem Adds.increment (h : Adds printed s) (deltaTime userCPU systemCPU : UInt64) :
    Adds printed (s.increment deltaTime userCPU systemCPU) where
  count := by
    show s.nTotalCount + 1 = _ + (s.nIntervalCount + 1)
    rw [h.count, UInt64.add_assoc]
  time := by
    show s.nTotalTime + deltaTime = _ + (s.nIntervalTime + deltaTime)
    rw [h.time, UInt64.add_assoc]
  max := by
    show (if s.nTotalMax < deltaTime then deltaTime else s.nTotalMax).toNat =
      List.foldr _ (if s.nIntervalMax < deltaTime then deltaTime else s.nIntervalMax).toNat _
    rw [toNat_ite_max, toNat_ite_max, foldr_max_comm, h.max]
  min := by
    show (if s.nTotalMin > deltaTime then deltaTime else s.nTotalMin).toNat =
      List.foldr _ (if s.nIntervalMin > deltaTime then deltaTime else s.nIntervalMin).toNat _
    rw [toNat_ite_min, toNat_ite_min, foldr_min_comm, h.min]

/-- Printed and reset: the interval is one of those printed now. A reset minimum is above any. -/
theorem Adds.report (h : Adds printed s) (hleast : s.nIntervalMin ≤ INITIAL_MIN_VALUE) :
    Adds (printed ++ [s]) s.resetInterval where
  count := by
    show s.nTotalCount = _ + 0
    rw [List.map_append, List.sum_append, h.count]
    simp
  time := by
    show s.nTotalTime = _ + 0
    rw [List.map_append, List.sum_append, h.time]
    simp
  max := by
    show s.nTotalMax.toNat = List.foldr _ 0 _
    rw [List.map_append, List.foldr_append, h.max]
    simp
  min := by
    show s.nTotalMin.toNat = List.foldr _ INITIAL_MIN_VALUE.toNat _
    have hleast : s.nIntervalMin.toNat ≤ INITIAL_MIN_VALUE.toNat := hleast
    rw [List.map_append, List.foldr_append, h.min, List.map_singleton, List.foldr_cons,
      List.foldr_nil, Nat.min_eq_left hleast]

/-- What is kept beside `Adds`: a minimum never rises above where it starts. -/
def AddsUp (printed : List TimingStats) (s : TimingStats) : Prop :=
  Adds printed s ∧ s.nIntervalMin ≤ INITIAL_MIN_VALUE

theorem AddsUp.root : AddsUp [] PerfNode.root.stats :=
  ⟨⟨rfl, rfl, rfl, rfl⟩, UInt64.le_refl _⟩

theorem AddsUp.fresh (name : Name) : AddsUp [] (NodeData.fresh name).stats :=
  ⟨⟨rfl, rfl, rfl, rfl⟩, UInt64.le_refl _⟩

theorem AddsUp.increment (h : AddsUp printed s) (deltaTime userCPU systemCPU : UInt64) :
    AddsUp printed (s.increment deltaTime userCPU systemCPU) := by
  refine ⟨h.1.increment deltaTime userCPU systemCPU, ?_⟩
  show (if s.nIntervalMin > deltaTime then deltaTime else s.nIntervalMin) ≤ INITIAL_MIN_VALUE
  split
  · next hlt => exact UInt64.le_trans (UInt64.le_of_lt hlt) h.2
  · exact h.2

theorem AddsUp.report (h : AddsUp printed s) : AddsUp (printed ++ [s]) s.resetInterval :=
  ⟨h.1.report h.2, UInt64.le_refl _⟩

end Stats

/-! ## One call -/

/-- What a full report that starts now will add to what was printed of a node. -/
theorem printedAt_report (reports : List Mem) (m : Mem) (p : NodePtr) :
    printedAt (reports ++ [m]) p = printedAt reports p ++ ((m.nodes.get p).map (·.stats)).toList := by
  unfold printedAt
  rw [List.filterMap_append, List.filterMap_cons, List.filterMap_nil]
  cases m.nodes.get p <;> rfl

/-- Each node that an entered tree has is one it had, with the same statistics, or a new one. -/
theorem entered_node {name : Name} (hT : Tracks m t r ct) (hS : TreeStep m m' t r (ct.enter name))
    {n' : PerfNode} (hp : Reaches (childOf m') r p) (hn' : m'.nodes.get p = some n') :
    (∃ n, Reaches (childOf m) r p ∧ m.nodes.get p = some n ∧ n'.stats = n.stats) ∨
      (m.nodes.next ≤ p ∧ n'.stats = (NodeData.fresh name).stats) := by
  obtain ⟨π, hπ⟩ := hp
  obtain ⟨n₁, hn₁, -, -, hdata'⟩ := hS.tracks.live hπ
  obtain rfl := Option.some.inj (hn'.symm.trans hn₁)
  have henter : (ct.enter name).node π = if π = name :: ct.active then
      some ((ct.node π).getD (.fresh name)) else ct.node π := rfl
  rw [henter] at hdata'
  cases hw : walk (childOf m) r π with
  | some q =>
    obtain rfl := Option.some.inj ((hS.walks hw).symm.trans hπ)
    obtain ⟨n, hn, -, -, hdata⟩ := hT.live hw
    rw [hdata] at hdata'
    have hsame : n.data = n'.data := by
      split at hdata'
      · exact Option.some.inj hdata'
      · exact Option.some.inj hdata'
    exact Or.inl ⟨n, ⟨π, hw⟩, hn, (congrArg NodeData.stats hsame).symm⟩
  | none =>
    rw [hT.absent hw] at hdata'
    refine Or.inr ⟨?_, ?_⟩
    · rcases hS.gained ⟨π, hπ⟩ with ⟨σ, hσ⟩ | hdead
      · -- the node had a path before, and a node of a tree has one path
        rw [hS.tracks.tidy σ π p (hS.walks hσ) hπ, hw] at hσ
        exact absurd hσ (by simp)
      · refine Nat.le_of_not_lt fun hlt => ?_
        rw [hS.dead hlt hdead] at hn'
        exact absurd hn' (by simp)
    · split at hdata'
      · exact (congrArg NodeData.stats (Option.some.inj hdata')).symm
      · exact absurd hdata' (by simp)

/-- The invariant of a run: the tree is new, or the figures of its nodes add up. No report knew a
    node that is not there yet. -/
structure Kept (t : TreePtr) (m : Mem) (reports : List Mem) : Prop where
  past : ∀ m₀ ∈ reports, m₀.nodes.next ≤ m.nodes.next
  tree : m.trees.get t = some {} ∨ ∃ r ct, Tracks m t r ct ∧ ∀ p node,
    Reaches (childOf m) r p → m.nodes.get p = some node → AddsUp (printedAt reports p) node.stats

theorem closeNode_nodes (hrun : PerfNode.closeNode m p = .ok m') : m'.nodes = m.nodes := by
  obtain ⟨n, -, hrun⟩ := bind_eq_ok.mp hrun
  split at hrun
  · rw [Except.ok.inj hrun]
  · obtain ⟨tree, -, hrun⟩ := bind_eq_ok.mp hrun
    split at hrun
    · exact absurd hrun (by simp)
    · split at hrun
      · obtain ⟨_, -, hrun⟩ := bind_eq_ok.mp hrun
        obtain ⟨_, -, hrun⟩ := bind_eq_ok.mp hrun
        rw [Except.ok.inj hrun]
      · rw [← Except.ok.inj hrun]
        rfl

namespace Kept

theorem printedAt_new (h : Kept t m reports) (hp : m.nodes.next ≤ p) : printedAt reports p = [] := by
  refine List.filterMap_eq_nil_iff.mpr fun m₀ hm₀ => ?_
  rw [Store.get, m₀.nodes.fresh p ((h.past m₀ hm₀).trans hp)]
  rfl

/-- A call that keeps every node. -/
theorem of_nodes (h : Kept t m reports) (hnodes : m'.nodes = m.nodes)
    (htree : m.trees.get t = some {} → m'.trees.get t = some {})
    (htracks : ∀ r ct, Tracks m t r ct → ∃ ct', Tracks m' t r ct') : Kept t m' reports := by
  refine ⟨by rw [hnodes]; exact h.past, ?_⟩
  rcases h.tree with hnew | ⟨r, ct, hT, hadds⟩
  · exact Or.inl (htree hnew)
  · obtain ⟨ct', hT'⟩ := htracks r ct hT
    have hedge : childOf m' = childOf m := by
      funext q k
      exact childOf_congr (by rw [hnodes]) k
    refine Or.inr ⟨r, ct', hT', fun p node hp hnode => ?_⟩
    rw [hedge] at hp
    rw [hnodes] at hnode
    exact hadds p node hp hnode

/-- The first lines of `AddNode`: afterwards the tree has a root. -/
theorem topOrRoot (h : Kept t m reports) {name : PerfTree → Except Fault PerfTree}
    {tID : pthread_t} {threadName : Except Fault Name} (hname : NamesTree name tID threadName)
    {pTop : NodePtr} (hrun : PerfTree.topOrRoot m t name = .ok (m', pTop)) : Kept t m' reports ∧
      ∃ r ct rest, m'.trees.get t = some (ct.object r (pTop :: rest)) ∧
        walk (childOf m') r ct.active = some pTop ∧ Tracks m' t r ct := by
  rcases h.tree with hnew | ⟨r, ct, hT, hadds⟩
  · rw [PerfTree.topOrRoot, Mem.tree_eq_ok.mpr hnew, ok_bind] at hrun
    obtain ⟨tree, htree, hrun⟩ := bind_eq_ok.mp hrun
    rw [hname] at htree
    cases threadName with
    | error e => exact absurd htree (by simp [Functor.map, Except.map])
    | ok n =>
      obtain rfl := Except.ok.inj htree
      obtain ⟨rfl, rfl⟩ := Prod.mk.inj (Except.ok.inj hrun)
      let tree : PerfTree := (CallTree.init tID n).object m.nodes.next [m.nodes.next]
      let m' : Mem := ({ m with nodes := m.nodes.alloc .root } : Mem).modifyTree t fun _ => tree
      have htree : m'.trees.get t = some tree := by
        show (m.trees.modify t _).get t = _
        rw [Store.get_modify, if_pos rfl, hnew]
        rfl
      have hroot : m'.nodes.get m.nodes.next = some .root := by
        show (m.nodes.alloc .root).get _ = _
        rw [Store.get_alloc, if_pos rfl]
      have hT : Tracks m' t m.nodes.next (.init tID n) := tracks_root htree hroot
      refine ⟨⟨fun m₀ hm₀ => (h.past m₀ hm₀).trans (Nat.le_succ _), Or.inr ⟨_, _, hT, ?_⟩⟩,
        _, _, [], htree, rfl, hT⟩
      rintro p node ⟨σ, hσ⟩ hnode
      have hσ' : walk (childOf m') m.nodes.next σ = some p := hσ
      rw [walk_root hroot] at hσ'
      split at hσ'
      · obtain rfl := Option.some.inj hσ'
        obtain rfl := Option.some.inj (hnode.symm.trans hroot)
        rw [h.printedAt_new (Nat.le_refl _)]
        exact .root
      · exact absurd hσ' (by simp)
  · obtain ⟨pTop₀, rest, htree, htop⟩ := hT.top
    rw [PerfTree.topOrRoot, Mem.tree_eq_ok.mpr htree] at hrun
    obtain ⟨rfl, rfl⟩ := Prod.mk.inj (Except.ok.inj hrun)
    exact ⟨h, r, ct, rest, htree, htop, hT⟩

/-- The tree has one root, and the figures of its nodes add up. -/
theorem adds (h : Kept t m reports) (hT : Tracks m t r ct) {node : PerfNode}
    (hp : Reaches (childOf m) r p) (hnode : m.nodes.get p = some node) :
    AddsUp (printedAt reports p) node.stats := by
  obtain ⟨stack, htree, -⟩ := hT.tree
  rcases h.tree with hnew | ⟨r₀, ct₀, hT₀, hadds⟩
  · exact absurd (Option.some.inj (htree.symm.trans hnew)) (by simp [CallTree.object])
  · obtain ⟨stack₀, htree₀, -⟩ := hT₀.tree
    have hroot := congrArg PerfTree.rootNode (Option.some.inj (htree.symm.trans htree₀))
    obtain rfl : r = r₀ := Option.some.inj hroot
    exact hadds p node hp hnode

/-- The last lines of `AddNode`: the node pushed is there already, or it is new. -/
theorem pushed (h : Kept t m reports) (hT : Tracks m t r ct) {pTop pNode : NodePtr}
    {rest : List NodePtr} {name : Name}
    (htree : m.trees.get t = some (ct.object r (pTop :: rest)))
    (htop : walk (childOf m) r ct.active = some pTop)
    (hrun : RdkPerf.pushed m t pTop name = .ok (m', pNode)) : Kept t m' reports := by
  have hname : name ≠ [] := by
    rintro rfl
    exact absurd (hrun.symm.trans (pushed_unnamed hT htop)) (by simp)
  obtain ⟨m₁, p₁, hm₁, hS, -⟩ := pushed_spec hT htree htop hname
  obtain ⟨rfl, rfl⟩ := Prod.mk.inj (Except.ok.inj (hm₁.symm.trans hrun))
  refine ⟨fun m₀ hm₀ => (h.past m₀ hm₀).trans hS.next, Or.inr ⟨r, _, hS.tracks, ?_⟩⟩
  intro p node hp hnode
  rcases entered_node hT hS hp hnode with ⟨n, hp₀, hn, hstats⟩ | ⟨hnew, hstats⟩
  · rw [hstats]
    exact h.adds hT hp₀ hn
  · rw [hstats, h.printedAt_new hnew]
    exact .fresh name

theorem addNodeRecord (h : Kept t m reports) {pRecord pRecord' : PerfRecord} {caller : Caller}
    {pNode : NodePtr}
    (hrun : PerfTree.addNodeRecord m t pRecord caller = .ok (m', pRecord', pNode)) :
    Kept t m' reports := by
  obtain ⟨⟨m₁, pTop⟩, htop, hrun⟩ := bind_eq_ok.mp hrun
  obtain ⟨h₁, r, ct, rest, htree, hw, hT⟩ := h.topOrRoot (namesTree_record caller) htop
  obtain ⟨⟨m₂, pRecord₂, pNode₂⟩, hchild, hpush⟩ := bind_eq_ok.mp hrun
  obtain ⟨⟨m₃, pNode₃⟩, hadd, hlearn⟩ := bind_eq_ok.mp hchild
  obtain ⟨rfl, hnode⟩ := Prod.mk.inj (Except.ok.inj hlearn)
  obtain ⟨-, rfl⟩ := Prod.mk.inj hnode
  obtain ⟨rfl, -⟩ := Prod.mk.inj (Except.ok.inj hpush)
  have hpushed : RdkPerf.pushed m₁ t pTop pRecord.elementName =
      .ok (PerfTree.pushNode m₃ t pNode₃, pNode₃) := by
    show (PerfNode.addChild m₁ pTop pRecord.elementName (PerfNode.ofRecord pRecord) >>= _) = _
    rw [hadd]
    rfl
  exact h₁.pushed hT htree hw hpushed

theorem addNodeEntry (h : Kept t m reports) {szName szThreadName : Option Name} {tID : pthread_t}
    {pNode : NodePtr}
    (hrun : PerfTree.addNodeEntry m t szName tID szThreadName = .ok (m', pNode)) :
    Kept t m' reports := by
  obtain ⟨⟨m₁, pTop⟩, htop, hrun⟩ := bind_eq_ok.mp hrun
  obtain ⟨h₁, r, ct, rest, htree, hw, hT⟩ := h.topOrRoot (namesTree_entry tID szThreadName) htop
  cases szName with
  | none => exact absurd hrun (by simp)
  | some szName => exact h₁.pushed hT htree hw hrun

/-- The calls on one node are calls on a node of the tree tracked. -/
theorem of_inTree (h : Kept t m reports) (hp : InTree m t p) :
    ∃ r ct, Tracks m t r ct ∧ ∃ π, walk (childOf m) r π = some p := by
  obtain ⟨tree, r, htree, hroot, hreach⟩ := hp
  rcases h.tree with hnew | ⟨r₀, ct, hT, -⟩
  · rw [Option.some.inj (htree.symm.trans hnew)] at hroot
    exact absurd hroot (by simp)
  · obtain ⟨stack, htree₀, -⟩ := hT.tree
    rw [Option.some.inj (htree.symm.trans htree₀)] at hroot
    obtain rfl : r₀ = r := Option.some.inj hroot
    exact ⟨r₀, ct, hT, hreach⟩

/-- `CloseNode` pops the stack at most. -/
theorem closeNode (h : Kept t m reports) (hp : InTree m t p)
    (hrun : PerfNode.closeNode m p = .ok m') : Kept t m' reports := by
  obtain ⟨r, ct, hT, π, hπ⟩ := h.of_inTree hp
  obtain ⟨m₁, hm₁, hS⟩ := closeNode_spec hT hπ
  obtain rfl := Except.ok.inj (hm₁.symm.trans hrun)
  have hnodes := closeNode_nodes hrun
  refine ⟨by rw [hnodes]; exact h.past, Or.inr ⟨r, _, hS.tracks, fun q node hq hnode => ?_⟩⟩
  rw [hnodes] at hnode
  refine h.adds hT ?_ hnode
  obtain ⟨σ, hσ⟩ := hq
  refine ⟨σ, (walk_congr (fun v _ k => ?_) σ).symm.trans hσ⟩
  exact childOf_congr (by rw [hnodes]) k

/-- `IncrementData` adds to one node. -/
theorem incrementData (h : Kept t m reports) (hp : InTree m t p) {deltaTime userCPU systemCPU : UInt64}
    (hrun : PerfNode.incrementData m p deltaTime userCPU systemCPU = .ok m') :
    Kept t m' reports := by
  obtain ⟨r, ct, hT, π, hπ⟩ := h.of_inTree hp
  obtain ⟨n, hn, hrun⟩ := bind_eq_ok.mp hrun
  obtain rfl := Except.ok.inj hrun
  have hS := TreeStep.onNode hT hπ
    (f := fun n => { n with stats := n.stats.increment deltaTime userCPU systemCPU })
    (fun d => { d with stats := d.stats.increment deltaTime userCPU systemCPU })
    (fun _ => rfl) (fun _ => rfl) (fun _ => rfl) (fun _ => rfl)
  refine ⟨fun m₀ hm₀ => (h.past m₀ hm₀).trans hS.next, Or.inr ⟨r, _, hS.tracks, ?_⟩⟩
  intro q node hq hnode
  have hedge : childOf (m.modifyNode p fun n =>
      { n with stats := n.stats.increment deltaTime userCPU systemCPU }) = childOf m :=
    childOf_modifyNode fun _ => rfl
  rw [hedge] at hq
  rw [Mem.modifyNode_nodes, Store.get_modify] at hnode
  split at hnode
  · obtain ⟨n₀, hn₀, rfl⟩ := Option.map_eq_some_iff.mp hnode
    exact (h.adds hT hq hn₀).increment deltaTime userCPU systemCPU
  · exact h.adds hT hq hnode

/-- A threshold report changes no node. -/
theorem reportDelta (h : Kept t m reports) (hp : InTree m t p) {nLevel : UInt32}
    (hrun : PerfNode.reportData m p nLevel true = .ok m') : Kept t m' reports := by
  obtain ⟨r, ct, hT, π, hπ⟩ := h.of_inTree hp
  obtain ⟨m₁, hm₁, hnodes, htrees, -⟩ := reportDelta_spec hT hπ nLevel
  obtain rfl := Except.ok.inj (hm₁.symm.trans hrun)
  refine h.of_nodes hnodes (fun hnew => by rw [htrees]; exact hnew) fun r ct hT => ⟨ct, ?_⟩
  exact hT.frame (by rw [htrees]) fun p _ => by rw [hnodes]

/-- A full report prints each node, and resets it. -/
theorem report (h : Kept t m reports) {msIntervalTime : UInt32}
    (hrun : PerfTree.reportData m t msIntervalTime = .ok m') : Kept t m' (reports ++ [m]) := by
  rcases h.tree with hnew | ⟨r, ct, hT, -⟩
  · -- a tree without a root cannot be reported
    rw [PerfTree.reportData, Mem.tree_eq_ok.mpr hnew] at hrun
    exact absurd hrun (by simp)
  · obtain ⟨m₁, visited, hm₁, hS, -⟩ := reportData_run hT msIntervalTime
    obtain ⟨m₂, hm₂, hstep, -⟩ := reportData_spec hT msIntervalTime
    obtain rfl := Except.ok.inj (hm₂.symm.trans hrun)
    have hnodes : m₁.nodes = m₂.nodes := by
      rw [← Except.ok.inj (hm₁.symm.trans hrun)]
      rfl
    refine ⟨fun m₀ hm₀ => ?_, Or.inr ⟨r, _, hstep.tracks, fun q node hq hnode => ?_⟩⟩
    · rcases List.mem_append.mp hm₀ with hm₀ | hm₀
      · exact (h.past m₀ hm₀).trans hstep.next
      · rw [List.mem_singleton.mp hm₀]
        exact hstep.next
    · rw [← hnodes] at hnode
      have hq₀ : Reaches (childOf m) r q := by
        refine Classical.byContradiction fun hout => ?_
        rw [hS.outside hout] at hnode
        rcases hstep.gained hq with hin | hdead
        · exact hout hin
        · exact absurd (hnode.symm.trans hdead) (by simp)
      rw [hS.inside hq₀] at hnode
      obtain ⟨n, hn, rfl⟩ := Option.map_eq_some_iff.mp hnode
      have hn : m.nodes.get q = some n := hn
      rw [printedAt_report, hn]
      exact (h.adds hT hq₀ hn).report

end Kept

/-! ## Runs -/

theorem TreeRun.kept (h : TreeRun t m reports) : Kept t m reports := by
  induction h with
  | new m₀ ht =>
    refine ⟨by simp, Or.inl ?_⟩
    show (m₀.trees.alloc {}).get t = _
    rw [Store.get_alloc, if_pos ht.symm]
  | addRecord _ _ _ _ _ hrun ih => exact ih.addNodeRecord hrun
  | addEntry _ _ _ _ _ hrun ih => exact ih.addNodeEntry hrun
  | close _ hp hrun ih => exact ih.closeNode hp hrun
  | increment _ hp _ _ _ hrun ih => exact ih.incrementData hp hrun
  | report _ _ hrun ih => exact ih.report hrun
  | reportDelta _ hp _ hrun ih => exact ih.reportDelta hp hrun

/-- From `m` to `m'` each node of the tree was printed once, as it was, and reset; no other node
    changed. `line` is the first line of the report. -/
def ReportsOnce (m m' : Mem) (t : TreePtr) (line : Printed) : Prop :=
  ∃ visited : List (UInt32 × NodePtr), (visited.map Prod.snd).Nodup ∧
    (∀ p, p ∈ visited.map Prod.snd ↔ InTree m t p) ∧
    (m'.log = m.log ++ line :: visited.flatMap fun v =>
      (m.nodes.get v.2).elim [] fun node => [.totals v.1 node.stats]) ∧
    (∀ p, InTree m t p → m'.nodes.get p =
      (m.nodes.get p).map fun node => { node with stats := node.stats.resetInterval }) ∧
    ∀ p, ¬ InTree m t p → m'.nodes.get p = m.nodes.get p

/-- **Intervals add up to totals**, at every moment and for every node of the tree; a full report
    prints and resets every node once, and a threshold report changes none. Either stays in its line
    buffers exactly where no node is so deep that its indent fills them. -/
theorem intervals_add_up (h : TreeRun t m reports) :
    (∀ p node, InTree m t p → m.nodes.get p = some node →
      Adds (printedAt reports p) node.stats) ∧
    (∀ ms tree, m.trees.get t = some tree → tree.rootNode ≠ none →
      ∃ m', PerfTree.reportData m t ms = .ok m' ∧
        ReportsOnce m m' t (.tree t tree.idThread.toUInt32 tree.shownName ms) ∧
        (m'.LinesFit ↔ m.LinesFit ∧ ∀ pRoot, tree.rootNode = some pRoot →
          ∀ depth, AtDepth m pRoot depth → 2 * depth < MAX_BUF_SIZE)) ∧
    ∀ p nLevel, InTree m t p →
      ∃ m', PerfNode.reportData m p nLevel true = .ok m' ∧ m'.nodes = m.nodes ∧
        (m'.LinesFit ↔ m.LinesFit ∧
          ∀ depth, AtDepth m p depth → 2 * (nLevel.toNat + depth) < MAX_BUF_SIZE) := by
  have hK := h.kept
  refine ⟨fun p node hp hnode => ?_, fun ms tree htree hroot => ?_, fun p nLevel hp => ?_⟩
  · obtain ⟨r, ct, hT, hreach⟩ := hK.of_inTree hp
    exact (hK.adds hT hreach hnode).1
  · rcases hK.tree with hnew | ⟨r, ct, hT, -⟩
    · rw [Option.some.inj (htree.symm.trans hnew)] at hroot
      exact absurd rfl hroot
    · obtain ⟨stack, htree₀, -⟩ := hT.tree
      obtain rfl := Option.some.inj (htree.symm.trans htree₀)
      obtain ⟨m₁, visited, hm₁, hS, hW⟩ := reportData_run hT ms
      have hin : ∀ p, InTree m t p ↔ Reaches (childOf m) r p := by
        intro p
        constructor
        · rintro ⟨tree, r₀, htree₁, hroot₁, hreach⟩
          rw [Option.some.inj (htree₁.symm.trans htree)] at hroot₁
          obtain rfl := Option.some.inj hroot₁
          exact hreach
        · exact fun hreach => ⟨_, r, htree, rfl, hreach⟩
      refine ⟨_, hm₁, ⟨visited, hW.nodup, fun p => hW.mem.trans (hin p).symm, ?_, fun p hp => ?_,
        fun p hp => ?_⟩, PerfTree.reportData_linesFit_iff htree hm₁⟩
      · show m₁.log = _
        rw [hW.log]
        exact List.append_assoc _ _ _
      · exact hS.inside ((hin p).mp hp)
      · exact hS.outside (mt (hin p).mpr hp)
  · obtain ⟨r, ct, hT, π, hπ⟩ := hK.of_inTree hp
    obtain ⟨m', hm', hnodes, -⟩ := reportDelta_spec hT hπ nLevel
    exact ⟨m', hm', hnodes, PerfNode.reportData_linesFit_iff hm'⟩

theorem inTree_of_walk {π : Path} (h : ((m.trees.get t).bind (·.rootNode)).bind
    (fun r => walk (childOf m) r π) = some p) : InTree m t p := by
  obtain ⟨r, hr, hp⟩ := Option.bind_eq_some_iff.mp h
  obtain ⟨tree, htree, hroot⟩ := Option.bind_eq_some_iff.mp hr
  exact ⟨tree, r, htree, hroot, π, hp⟩

/-- `f` is entered in a new tree, takes 5 microseconds, and is reported. -/
theorem reportedOnce_adds : ∃ m reports node, TreeRun 0 m reports ∧ m.nodes.get 1 = some node ∧
    node.stats.nTotalTime = 5 ∧ Adds (printedAt reports 1) node.stats := by
  let m₀ : Mem := { Mem.init with trees := Mem.init.trees.alloc {} }
  let record : PerfRecord := { elementName := nameF.bytes, startTime := 0, idThread := 1 }
  let find (m : Mem) : Option NodePtr :=
    ((m.trees.get 0).bind (·.rootNode)).bind fun r => walk (childOf m) r [nameF.bytes]
  obtain ⟨⟨m₁, record', p⟩, h₁, hread⟩ := ok_of_toOption_bind
    (show (PerfTree.addNodeRecord m₀ 0 record threadA).toOption.bind (fun x =>
      (find x.1).bind fun p => (PerfNode.incrementData x.1 p 5 0 0).toOption.bind fun m₂ =>
        (PerfTree.reportData m₂ 0 0).toOption.bind fun m₃ => (find m₃).bind fun q =>
          (m₃.nodes.get 1).map fun node => (p, q, node.stats.nTotalTime)) = some (1, 1, 5) by decide)
  obtain ⟨p₁, hp₁, hread⟩ := Option.bind_eq_some_iff.mp hread
  obtain ⟨m₂, h₂, hread⟩ := ok_of_toOption_bind hread
  obtain ⟨m₃, h₃, hread⟩ := ok_of_toOption_bind hread
  obtain ⟨p₃, hp₃, hread⟩ := Option.bind_eq_some_iff.mp hread
  obtain ⟨node, hnode, hread⟩ := Option.map_eq_some_iff.mp hread
  obtain ⟨rfl, hrest⟩ := Prod.mk.inj hread
  obtain ⟨rfl, htime⟩ := Prod.mk.inj hrest
  have hrun : TreeRun 0 m₃ ([] ++ [m₂]) :=
    .report (.increment (.addRecord (.new Mem.init rfl) _ _ _ _ h₁) (inTree_of_walk hp₁) _ _ _ h₂)
      0 h₃
  exact ⟨m₃, _, node, hrun, hnode, htime,
    (intervals_add_up hrun).1 1 node (inTree_of_walk hp₃) hnode⟩

end RdkPerf

import RdkPerf.Proof.Sweep

/-!
# What the methods of a tree do to its call tree

One specification for each method of `PerfTree` and `PerfNode`, over a tree the memory tracks:
the method returns, and the tree is then the call tree that the operation of the same name in
`Spec/CallTree.lean` gives. Nothing above this file opens a method of these two classes.

Most of them leave the shape of the tree alone and change the data of its nodes; those go through
`Tracks.mapData`. `AddNode` is the one that adds an edge, and `Lib.walk_addEdge` is its content.
-/

namespace RdkPerf

open Lib

variable {m m' : Mem} {t : TreePtr} {r p : NodePtr} {ct : CallTree} {π : Path} {name : Name}

namespace Tracks

/-- A path leads to one node, and a node has one path. -/
theorem path_eq_iff (hT : Tracks m t r ct) {π' : Path} {p' : NodePtr}
    (hp : walk (childOf m) r π = some p) (hp' : walk (childOf m) r π' = some p') :
    p = p' ↔ π = π' := by
  constructor
  · rintro rfl
    exact hT.tidy π π' p hp hp'
  · rintro rfl
    exact Option.some.inj (hp.symm.trans hp')

/-- The data of the nodes changed, by `g` at each path, and the tree object from `ct` to `ct'`;
    the stack did not, nor did any edge. -/
theorem mapData (hT : Tracks m t r ct) {ct' : CallTree} (g : Path → NodeData → NodeData)
    (hedge : childOf m' = childOf m)
    (htree : ∀ stack, m.trees.get t = some (ct.object r stack) →
      m'.trees.get t = some (ct'.object r stack))
    (hactive : ct'.active = ct.active)
    (hnode : ∀ π, ct'.node π = (ct.node π).map (g π))
    (hnodes : ∀ {π p n}, walk (childOf m) r π = some p → m.nodes.get p = some n →
      ∃ n', m'.nodes.get p = some n' ∧ n'.elementName = n.elementName ∧ n'.tree = n.tree ∧
        n'.data = g π n.data) : Tracks m' t r ct' := by
  obtain ⟨stack, ht, hs⟩ := hT.tree
  refine ⟨⟨stack, htree stack ht, by rw [hedge, hactive]; exact hs⟩, by rw [hedge]; exact hT.tidy,
    fun {π p} hp => ?_, fun {π} hπ => ?_, fun {π p} hp => ?_⟩
  · rw [hedge] at hp
    obtain ⟨n, hn, hname, howner, hdata⟩ := hT.live hp
    obtain ⟨n', hn', hname', howner', hdata'⟩ := hnodes hp hn
    exact ⟨n', hn', hname'.trans hname, howner'.trans howner, by rw [hnode, hdata, hdata']; rfl⟩
  · rw [hedge] at hπ
    rw [hnode, hT.absent hπ]
    rfl
  · rw [hedge] at hp
    exact hT.named hp

end Tracks

/-! ## The data of one node -/

/-- An update of one node that keeps its place in the tree. -/
theorem TreeStep.onNode (hT : Tracks m t r ct) (hp : walk (childOf m) r π = some p)
    {f : PerfNode → PerfNode} (g : NodeData → NodeData) (hchild : ∀ n, (f n).childNodes = n.childNodes)
    (hname : ∀ n, (f n).elementName = n.elementName) (htree : ∀ n, (f n).tree = n.tree)
    (hdata : ∀ n, (f n).data = g n.data) :
    TreeStep m (m.modifyNode p f) t r (ct.onNode π g) := by
  have hedge : childOf (m.modifyNode p f) = childOf m := childOf_modifyNode hchild
  refine .of_sameShape ?_ hedge rfl ?_ ?_ (fun _ _ => rfl) rfl
  · refine hT.mapData (fun σ d => if σ = π then g d else d) hedge (fun _ h => h) rfl ?_ ?_
    · intro σ
      show (if σ = π then (ct.node σ).map g else ct.node σ) = _
      by_cases hσ : σ = π
      · simp [hσ]
      · simp [hσ]
    · intro σ q n hq hn
      rw [Mem.modifyNode_nodes, Store.get_modify, hn]
      by_cases hqp : q = p
      · have hσ := (hT.path_eq_iff hq hp).mp hqp
        rw [if_pos hqp, if_pos hσ]
        exact ⟨f n, rfl, hname n, htree n, hdata n⟩
      · have hσ : σ ≠ π := fun h => hqp ((hT.path_eq_iff hq hp).mpr h)
        rw [if_neg hqp, if_neg hσ]
        exact ⟨n, rfl, rfl, rfl, rfl⟩
  · intro q hq
    rw [Mem.modifyNode_nodes, Store.get_modify, if_neg]
    rintro rfl
    exact hq ⟨π, hp⟩
  · intro q hq
    rw [Mem.modifyNode_nodes, Store.get_modify, hq]
    simp

theorem incrementData_spec (hT : Tracks m t r ct) (hp : walk (childOf m) r π = some p)
    (deltaTime : UInt64) : ∃ m', PerfNode.incrementData m p deltaTime 0 0 = .ok m' ∧
      TreeStep m m' t r (ct.onNode π (·.increment deltaTime)) := by
  obtain ⟨n, hn, -⟩ := hT.live hp
  refine ⟨_, ?_, TreeStep.onNode hT hp (·.increment deltaTime)
    (f := fun n => { n with stats := n.stats.increment deltaTime 0 0 })
    (fun _ => rfl) (fun _ => rfl) (fun _ => rfl) (fun _ => rfl)⟩
  rw [PerfNode.incrementData, Mem.node_eq_ok.mpr hn]
  rfl

theorem setThreshold_spec (hT : Tracks m t r ct) (hp : walk (childOf m) r π = some p)
    (nUS : Int32) : TreeStep m (m.modifyNode p (·.setThreshold nUS)) t r
      (ct.onNode π (·.setThreshold nUS)) :=
  TreeStep.onNode hT hp _ (fun _ => rfl) (fun _ => rfl) (fun _ => rfl) (fun _ => rfl)

/-! ## Closing a node -/

/-- Only the tree object changes, and in it the stack at most. -/
theorem TreeStep.refl (hT : Tracks m t r ct) : TreeStep m m t r ct :=
  .of_sameShape hT rfl rfl (fun _ _ => rfl) (fun _ h => h) (fun _ _ => rfl) rfl

/-- `pop`. -/
theorem TreeStep.pop (hT : Tracks m t r ct) {rest : List NodePtr}
    (htree : m.trees.get t = some (ct.object r (p :: rest))) (hne : ct.active ≠ []) :
    TreeStep m (m.modifyTree t fun tr => { tr with activeNode := rest }) t r
      { ct with active := ct.active.tail } := by
  obtain ⟨stack, ht, hs⟩ := hT.tree
  obtain rfl : stack = p :: rest :=
    congrArg PerfTree.activeNode (Option.some.inj (ht.symm.trans htree))
  refine .of_sameShape ⟨⟨rest, ?_, ?_⟩, hT.tidy, hT.live, hT.absent, hT.named⟩ rfl rfl (fun _ _ => rfl)
    (fun _ h => h) (fun t' ht' => ?_) rfl
  · rw [Mem.modifyTree_trees, Store.get_modify, if_pos rfl, htree]
    rfl
  · show Spells (childOf m) r ct.active.tail rest
    cases hact : ct.active with
    | nil => exact absurd hact hne
    | cons name π =>
      rw [hact] at hs
      obtain ⟨v, s, hcons, -, hs'⟩ := hs
      rw [(List.cons.inj hcons).2]
      exact hs'
  · rw [Mem.modifyTree_trees, Store.get_modify, if_neg ht']

/-- **`CloseNode`** on the node at `π`: the root has no `m_Tree` and nothing happens, the top of
    the stack is popped, and any other node is logged as not being the active one. -/
theorem closeNode_spec (hT : Tracks m t r ct) (hp : walk (childOf m) r π = some p) :
    ∃ m', PerfNode.closeNode m p = .ok m' ∧ TreeStep m m' t r (ct.close π) := by
  obtain ⟨n, hn, -, howner, -⟩ := hT.live hp
  cases hπ : π with
  | nil =>
    rw [hπ] at howner
    refine ⟨m, ?_, by rw [CallTree.close_root]; exact .refl hT⟩
    rw [PerfNode.closeNode, Mem.node_eq_ok.mpr hn, ok_bind, howner]
    rfl
  | cons name π' =>
    rw [← hπ]
    have howner' : n.tree = some t := by rw [howner, hπ]; rfl
    obtain ⟨pTop, rest, htree, htop⟩ := hT.top
    obtain ⟨nTop, hnTop, -⟩ := hT.live htop
    have hcall : PerfNode.closeNode m p = PerfTree.closeActiveNode m t p := by
      rw [PerfNode.closeNode, Mem.node_eq_ok.mpr hn, ok_bind, howner']
    rw [hcall, PerfTree.closeActiveNode, Mem.tree_eq_ok.mpr htree, ok_bind]
    simp only [CallTree.object]
    by_cases heq : p = pTop
    · have hact : π = ct.active := (hT.path_eq_iff hp htop).mp heq
      have hne : π ≠ [] := by rw [hπ]; simp
      refine ⟨_, if_neg (not_not.mpr heq), ?_⟩
      rw [CallTree.close, if_pos ⟨hne, hact⟩, hact]
      exact .pop hT htree (hact ▸ hne)
    · have hact : ¬ (π ≠ [] ∧ π = ct.active) := fun h => heq ((hT.path_eq_iff hp htop).mpr h.2)
      refine ⟨m, ?_, by rw [CallTree.close, if_neg hact]; exact .refl hT⟩
      rw [if_pos heq, Mem.node_eq_ok.mpr hnTop, Mem.node_eq_ok.mpr hn]
      rfl

/-- What `~PerfRecord` and `HandleExit` both do to a node. -/
theorem stop_spec (hT : Tracks m t r ct) (hp : walk (childOf m) r π = some p)
    (deltaTime : UInt64) : ∃ m', (do
        let m ← PerfNode.incrementData m p deltaTime 0 0
        PerfNode.closeNode m p) = .ok m' ∧ TreeStep m m' t r (ct.stop π deltaTime) := by
  obtain ⟨m₁, hm₁, hS₁⟩ := incrementData_spec hT hp deltaTime
  obtain ⟨m₂, hm₂, hS₂⟩ := closeNode_spec hS₁.tracks (hS₁.walks hp)
  exact ⟨m₂, by rw [hm₁, ok_bind, hm₂], hS₁.trans hS₂⟩

/-! ## Reports -/

theorem isInactive_spec (hT : Tracks m t r ct) : PerfTree.isInactive m t = .ok ct.inactive := by
  obtain ⟨pTop, rest, htree, htop⟩ := hT.top
  rw [PerfTree.isInactive, Mem.tree_eq_ok.mpr htree, ok_bind]
  have htop' : pTop = r ↔ ct.active = [] := hT.path_eq_iff htop walk_nil
  simp only [CallTree.object, CallTree.inactive, Option.some.injEq, htop']
  split
  · next h => simp [h]
  · next h => simp [h]

/-- How a report of the whole tree runs: its first line names the tree, and then each node prints
    a line of its own and is reset. -/
theorem reportData_run (hT : Tracks m t r ct) (ms : UInt32) : ∃ m₁ visited,
    PerfTree.reportData m t ms =
      .ok (m₁.modifyTree t fun tr => { tr with countAtLastReport := tr.activityCount }) ∧
    Swept (reported false) (Reaches (childOf m) r)
      (m.print (.tree t ct.idThread.toUInt32 ct.shownName ms)) m₁ ∧
    Walked (reportLine false) (Reaches (childOf m) r)
      (m.print (.tree t ct.idThread.toUInt32 ct.shownName ms)) m₁ visited := by
  obtain ⟨stack, htree, -⟩ := hT.tree
  have hT₀ : Tracks (m.print (.tree t ct.idThread.toUInt32 ct.shownName ms)) t r ct :=
    hT.frame rfl fun _ _ => rfl
  obtain ⟨m₁, hm₁, hS, visited, hW⟩ := hT₀.reportData_node .refl 0 false
  refine ⟨m₁, visited, ?_, hS, hW⟩
  rw [PerfTree.reportData, Mem.tree_eq_ok.mpr htree, ok_bind]
  show (PerfNode.reportData (m.print (.tree t ct.idThread.toUInt32 ct.shownName ms)) r 0 false >>=
    _) = _
  rw [hm₁]
  rfl

/-- A report of the whole tree. -/
theorem reportData_spec (hT : Tracks m t r ct) (ms : UInt32) :
    ∃ m', PerfTree.reportData m t ms = .ok m' ∧ TreeStep m m' t r ct.report ∧
      m.log ++ [.tree t ct.idThread.toUInt32 ct.shownName ms] <+: m'.log := by
  obtain ⟨m₁, visited, hm', hS, -⟩ := reportData_run hT ms
  have hget : ∀ q, m₁.nodes.get q = m.nodes.get q ∨
      Reaches (childOf m) r q ∧ m₁.nodes.get q = reported false (m.nodes.get q) := by
    intro q
    by_cases hq : Reaches (childOf m) r q
    · exact Or.inr ⟨hq, hS.inside hq⟩
    · exact Or.inl (hS.outside hq)
  -- a reset keeps every child map
  have hedge : childOf m₁ = childOf m := by
    funext q k
    unfold childOf
    rcases hget q with h | ⟨-, h⟩
    · rw [h]
    · rw [h]
      cases m.nodes.get q <;> rfl
  refine ⟨_, hm', ?_, hS.log⟩
  refine .of_sameShape ?_ hedge hS.next ?_ ?_ ?_ hS.processMap
  · refine hT.mapData (fun _ => .resetInterval) hedge ?_ rfl (fun _ => rfl) ?_
    · intro stack' h
      rw [Mem.modifyTree_trees, Store.get_modify, if_pos rfl, hS.trees, Mem.print_trees, h]
      rfl
    · intro σ q n hq hn
      have hq' : m₁.nodes.get q = _ := hS.inside ⟨σ, hq⟩
      rw [Mem.print_nodes, hn] at hq'
      exact ⟨_, hq', rfl, rfl, rfl⟩
  · exact fun q hq => hS.outside hq
  · intro q hq
    rcases hget q with h | ⟨-, h⟩
    · exact h.trans hq
    · rw [Mem.modifyTree_nodes, h, hq]
      rfl
  · intro t' ht'
    rw [Mem.modifyTree_trees, Store.get_modify, if_neg ht', hS.trees]
    rfl

/-- A report of one node's subtree that shows deltas only changes nothing but the log. -/
theorem reportDelta_spec (hT : Tracks m t r ct) (hp : walk (childOf m) r π = some p)
    (nLevel : UInt32) : ∃ m', PerfNode.reportData m p nLevel true = .ok m' ∧
      m'.nodes = m.nodes ∧ m'.trees = m.trees ∧ m'.processMap = m.processMap ∧
      m.log <+: m'.log := by
  obtain ⟨m', hm', hS, -⟩ := hT.reportData_node ⟨π, hp⟩ nLevel true
  refine ⟨m', hm', Store.ext (fun q => ?_) hS.next, hS.trees, hS.processMap, hS.log⟩
  by_cases hq : Reaches (childOf m) p q
  · exact hS.inside hq
  · exact hS.outside hq

/-! ## Deleting a tree -/

/-- The tree at `t` and its nodes are dead; nothing else was touched. -/
structure TreeGone (m m' : Mem) (t : TreePtr) (r : NodePtr) : Prop where
  inside : ∀ {q}, Reaches (childOf m) r q → m'.nodes.get q = none
  outside : ∀ {q}, ¬ Reaches (childOf m) r q → m'.nodes.get q = m.nodes.get q
  next : m'.nodes.next = m.nodes.next
  trees : ∀ {t'}, t' ≠ t → m'.trees.get t' = m.trees.get t'
  processMap : m'.processMap = m.processMap

theorem delete_spec (hT : Tracks m t r ct) :
    ∃ m', PerfTree.delete m t = .ok m' ∧ TreeGone m m' t r := by
  obtain ⟨stack, htree, hs⟩ := hT.tree
  obtain ⟨m₁, hm₁, hS⟩ := hT.delete_node
  refine ⟨{ m₁ with trees := m₁.trees.free t }, ?_, hS.inside, hS.outside, hS.next, ?_,
    hS.processMap⟩
  · rw [PerfTree.delete, Mem.tree_eq_ok.mpr htree, ok_bind]
    simp only [CallTree.object]
    rw [hm₁]
    rfl
  · intro t' ht'
    rw [Store.get_free, if_neg ht', hS.trees]

/-! ## Adding a node -/

/-- Entering a path that is recorded already only opens it. -/
theorem CallTree.enter_node_of_some {d : NodeData} (h : ct.node (name :: ct.active) = some d) :
    (ct.enter name).node = ct.node := by
  funext σ
  show (if σ = name :: ct.active then _ else _) = _
  split
  · next hσ => rw [hσ, h]; rfl
  · rfl

/-- Entering a new path records it. -/
theorem CallTree.enter_node_of_none (h : ct.node (name :: ct.active) = none) (σ : Path) :
    (ct.enter name).node σ =
      if σ = name :: ct.active then some (.fresh name) else ct.node σ := by
  show (if σ = name :: ct.active then _ else _) = _
  split
  · next hσ => rw [hσ, h]; rfl
  · rfl

theorem PerfNode.eq_named_of_construct {n : PerfNode} (h : PerfNode.construct name = .ok n) :
    n = .named name := by
  unfold PerfNode.construct at h
  split at h
  · exact absurd h (by simp)
  · exact (Except.ok.inj h).symm

/-- The node that `AddNode` pushes, with the memory after it. -/
def pushed (m : Mem) (t : TreePtr) (pTop : NodePtr) (name : Name) :
    Except Fault (Mem × NodePtr) := do
  let (m, pNode) ← PerfNode.addChild m pTop name (PerfNode.construct name)
  pure (PerfTree.pushNode m t pNode, pNode)

section AddNode

variable {pTop : NodePtr} {rest : List NodePtr}

/-- The child is there: it is pushed, and no node changes. -/
theorem pushed_present (hT : Tracks m t r ct)
    (htree : m.trees.get t = some (ct.object r (pTop :: rest)))
    (htop : walk (childOf m) r ct.active = some pTop)
    (hp : childOf m pTop name = some p) :
    ∃ m', pushed m t pTop name = .ok (m', p) ∧ TreeStep m m' t r (ct.enter name) ∧
      walk (childOf m') r (name :: ct.active) = some p := by
  have hw : walk (childOf m) r (name :: ct.active) = some p :=
    walk_cons_eq_some.mpr ⟨pTop, htop, hp⟩
  obtain ⟨n, hn, -, howner, hdata⟩ := hT.live hw
  obtain ⟨nTop, hnTop, -⟩ := hT.live htop
  have hfind : nTop.childNodes[name]? = some p := by
    rw [childOf, hnTop] at hp
    exact hp
  obtain ⟨stack, ht, hs⟩ := hT.tree
  obtain rfl : stack = pTop :: rest :=
    congrArg PerfTree.activeNode (Option.some.inj (ht.symm.trans htree))
  refine ⟨PerfTree.pushNode m t p, ?_, ?_⟩
  · rw [pushed, PerfNode.addChild, Mem.node_eq_ok.mpr hnTop, ok_bind, hfind]
    rfl
  · have hsame : (PerfTree.pushNode m t p).nodes = m.nodes := by
      refine Store.modify_eq_self fun a ha => ?_
      obtain rfl := Option.some.inj (hn.symm.trans ha)
      show PerfNode.setTree n t = n
      rw [PerfNode.setTree, ← show n.tree = some t from howner]
    have hedge : childOf (PerfTree.pushNode m t p) = childOf m := by
      funext q k
      exact childOf_congr (by rw [hsame]) k
    refine ⟨.of_sameShape ⟨⟨p :: pTop :: rest, ?_, ?_⟩, by rw [hedge]; exact hT.tidy, ?_, ?_,
      fun hq => hT.named (by rw [hedge] at hq; exact hq)⟩
      hedge (by rw [hsame]) (fun q _ => by rw [hsame]) (fun q h => by rw [hsame]; exact h) ?_ rfl,
      by rw [hedge]; exact hw⟩
    · show (m.trees.modify t _).get t = _
      rw [Store.get_modify, if_pos rfl, htree]
      rfl
    · rw [hedge]
      exact ⟨p, _, rfl, hw, hs⟩
    · intro σ q hq
      rw [hedge] at hq
      rw [hsame, CallTree.enter_node_of_some hdata]
      exact hT.live hq
    · intro σ hσ
      rw [hedge] at hσ
      rw [CallTree.enter_node_of_some hdata]
      exact hT.absent hσ
    · intro t' ht'
      show (m.trees.modify t _).get t' = _
      rw [Store.get_modify, if_neg ht']

/-- The memory after `AddNode` made a child of `pTop`, cell by cell: the child is made, linked and
    pushed. -/
structure Linked (m m' : Mem) (t : TreePtr) (r pTop : NodePtr) (rest : List NodePtr)
    (ct : CallTree) (name : Name) : Prop where
  child : m'.nodes.get m.nodes.next = some ((PerfNode.named name).setTree t)
  top : ∀ {nTop}, m.nodes.get pTop = some nTop → m'.nodes.get pTop =
    some { nTop with childNodes := nTop.childNodes.insert name m.nodes.next }
  others : ∀ {q}, q ≠ m.nodes.next → q ≠ pTop → m'.nodes.get q = m.nodes.get q
  next : m'.nodes.next = m.nodes.next + 1
  trees : ∀ t', m'.trees.get t' = if t' = t then
    some ((ct.enter name).object r (m.nodes.next :: pTop :: rest)) else m.trees.get t'
  processMap : m'.processMap = m.processMap

theorem pushed_linked {nTop : PerfNode} (hnTop : m.nodes.get pTop = some nTop)
    (htree : m.trees.get t = some (ct.object r (pTop :: rest)))
    (hfind : nTop.childNodes[name]? = none) (hname : name ≠ []) :
    ∃ m', pushed m t pTop name = .ok (m', m.nodes.next) ∧ Linked m m' t r pTop rest ct name := by
  have hne : pTop ≠ m.nodes.next := Store.ne_next hnTop
  let link (n : PerfNode) : PerfNode :=
    { n with childNodes := n.childNodes.insert name m.nodes.next }
  let m₁ : Mem := { m with nodes := m.nodes.alloc (.named name) }
  have hget : ∀ q, (PerfTree.pushNode (m₁.modifyNode pTop link) t m.nodes.next).nodes.get q =
      (((m.nodes.alloc (.named name)).modify pTop link).modify m.nodes.next
        (·.setTree t)).get q := fun q => rfl
  refine ⟨PerfTree.pushNode (m₁.modifyNode pTop link) t m.nodes.next, ?_,
    ⟨?_, fun {n} hn => ?_, fun {q} hc hp => ?_, rfl, fun t' => ?_, rfl⟩⟩
  · rw [pushed, PerfNode.addChild, Mem.node_eq_ok.mpr hnTop, ok_bind, hfind]
    simp only [PerfNode.construct, if_neg hname]
    rfl
  · rw [hget, Store.get_modify, if_pos rfl, Store.get_modify, if_neg (Ne.symm hne),
      Store.get_alloc, if_pos rfl]
    rfl
  · rw [hget, Store.get_modify, if_neg hne, Store.get_modify, if_pos rfl, Store.get_alloc,
      if_neg hne, hn]
    rfl
  · rw [hget, Store.get_modify, if_neg hc, Store.get_modify, if_neg hp, Store.get_alloc, if_neg hc]
  · show (m.trees.modify t _).get t' = _
    rw [Store.get_modify]
    split
    · next h => rw [h, htree]; rfl
    · rfl

namespace Linked

/-- One edge is new. -/
theorem childOf_top (hL : Linked m m' t r pTop rest ct name) {nTop : PerfNode}
    (hnTop : m.nodes.get pTop = some nTop) (k : Name) :
    childOf m' pTop k = if k = name then some m.nodes.next else childOf m pTop k := by
  rw [childOf, hL.top hnTop, childOf, hnTop, Option.bind_some, Option.bind_some,
    Std.ExtTreeMap.getElem?_insert]
  by_cases hk : k = name
  · simp [hk]
  · rw [if_neg (by simpa using fun h : name = k => hk h.symm), if_neg hk]

theorem childOf_other (hL : Linked m m' t r pTop rest ct name) {v : NodePtr} (hv : v ≠ pTop)
    (k : Name) : childOf m' v k = childOf m v k := by
  by_cases hvc : v = m.nodes.next
  · rw [hvc, childOf, hL.child, childOf, Store.get_next]
    exact Std.ExtTreeMap.getElem?_empty
  · exact childOf_congr (hL.others hvc hv) k

theorem walk_none (htop : walk (childOf m) r ct.active = some pTop)
    (habs : childOf m pTop name = none) : walk (childOf m) r (name :: ct.active) = none := by
  rw [walk_cons, htop, Option.bind_some, habs]

section Tracked

variable (hL : Linked m m' t r pTop rest ct name) (hT : Tracks m t r ct)
  (htop : walk (childOf m) r ct.active = some pTop) (habs : childOf m pTop name = none)

include hL hT htop habs

/-- So one path is new. -/
theorem walk_eq (σ : Path) : walk (childOf m') r σ =
    if σ = name :: ct.active then some m.nodes.next else walk (childOf m) r σ := by
  obtain ⟨nTop, hnTop, -⟩ := hT.live htop
  have hdead : m.nodes.get m.nodes.next = none := Store.get_next _
  apply walk_addEdge hT.tidy htop habs (fun h => hT.reached_live h hdead)
  · intro k
    rw [childOf, hdead]
    rfl
  · rw [hL.childOf_top hnTop, if_pos rfl]
  · rintro v k - hk
    by_cases hv : v = pTop
    · rw [hv, hL.childOf_top hnTop, if_neg fun h => hk ⟨hv, h⟩]
    · exact hL.childOf_other hv k

theorem tracks (hname : name ≠ []) (hs : Spells (childOf m) r ct.active (pTop :: rest)) :
    Tracks m' t r (ct.enter name) := by
  have hwalk := hL.walk_eq hT htop habs
  have hentered := CallTree.enter_node_of_none (hT.absent (walk_none htop habs))
  obtain ⟨nTop, hnTop, -⟩ := hT.live htop
  refine ⟨⟨m.nodes.next :: pTop :: rest, ?_, ?_⟩, ?_, ?_, ?_, ?_⟩
  · rw [hL.trees, if_pos rfl]
  · refine ⟨m.nodes.next, _, rfl, by rw [hwalk, if_pos rfl], hs.congr fun σ hσ => ?_⟩
    rw [hwalk, if_neg]
    rintro rfl
    have := hσ.length_le
    rw [List.length_cons] at this
    omega
  · exact hT.tidy.addEdge (fun h => hT.reached_live h (Store.get_next _)) hwalk
  · intro σ q hq
    rw [hwalk] at hq
    split at hq
    · next hσ =>
      obtain rfl := Option.some.inj hq
      refine ⟨_, hL.child, ?_, ?_, by rw [hentered, if_pos hσ]; rfl⟩
      · rw [hσ]; rfl
      · rw [hσ]; rfl
    · next hσ =>
      obtain ⟨n, hn, hrest⟩ := hT.live hq
      rw [hentered, if_neg hσ]
      by_cases hqp : q = pTop
      · obtain rfl := Option.some.inj (hn.symm.trans (hqp ▸ hnTop))
        refine ⟨{ n with childNodes := n.childNodes.insert name m.nodes.next }, ?_, hrest⟩
        rw [hqp]
        exact hL.top hnTop
      · exact ⟨n, by rw [hL.others (Store.ne_next hn) hqp, hn], hrest⟩
  · intro σ hσ
    rw [hwalk] at hσ
    split at hσ
    · exact absurd hσ (by simp)
    · next hne => rw [hentered, if_neg hne]; exact hT.absent hσ
  · intro σ q hq
    rw [hwalk] at hq
    split at hq
    · next hσ =>
      rw [hσ, List.mem_cons]
      rintro (hnil | hmem)
      · exact hname hnil.symm
      · exact hT.named htop hmem
    · exact hT.named hq

theorem treeStep (hname : name ≠ []) (hs : Spells (childOf m) r ct.active (pTop :: rest)) :
    TreeStep m m' t r (ct.enter name) := by
  have hwalk := hL.walk_eq hT htop habs
  have hdead : m.nodes.get m.nodes.next = none := Store.get_next _
  refine ⟨hL.tracks hT htop habs hname hs, ?_, ?_, ?_, ?_, ?_, ?_, hL.processMap⟩
  · intro σ q hq
    rw [hwalk, if_neg, hq]
    rintro rfl
    rw [walk_none htop habs] at hq
    exact absurd hq (by simp)
  · rintro q ⟨σ, hq⟩
    rw [hwalk] at hq
    split at hq
    · exact Or.inr ((Option.some.inj hq) ▸ hdead)
    · exact Or.inl ⟨σ, hq⟩
  · intro q hr hlive
    exact hL.others (fun h => hlive (h ▸ hdead)) (fun h => hr (h ▸ ⟨_, htop⟩))
  · intro q hlt hq
    obtain ⟨nTop, hnTop, -⟩ := hT.live htop
    rw [hL.others (Nat.ne_of_lt hlt), hq]
    rintro rfl
    rw [hnTop] at hq
    exact absurd hq (by simp)
  · rw [hL.next]
    exact Nat.le_succ _
  · intro t' ht'
    rw [hL.trees, if_neg ht']

end Tracked
end Linked

/-- The child is not there: it is made. -/
theorem pushed_absent (hT : Tracks m t r ct)
    (htree : m.trees.get t = some (ct.object r (pTop :: rest)))
    (htop : walk (childOf m) r ct.active = some pTop)
    (habs : childOf m pTop name = none) (hname : name ≠ []) :
    ∃ m', pushed m t pTop name = .ok (m', m.nodes.next) ∧ TreeStep m m' t r (ct.enter name) ∧
      walk (childOf m') r (name :: ct.active) = some m.nodes.next := by
  obtain ⟨nTop, hnTop, -⟩ := hT.live htop
  have hfind : nTop.childNodes[name]? = none := by
    rw [childOf, hnTop] at habs
    exact habs
  obtain ⟨stack, ht, hs⟩ := hT.tree
  obtain rfl : stack = pTop :: rest :=
    congrArg PerfTree.activeNode (Option.some.inj (ht.symm.trans htree))
  obtain ⟨m', hm', hL⟩ := pushed_linked hnTop htree hfind hname
  refine ⟨m', hm', hL.treeStep hT htop habs hname hs, ?_⟩
  rw [hL.walk_eq hT htop habs, if_pos rfl]

/-- **`AddNode`** below the top of the stack. -/
theorem pushed_spec (hT : Tracks m t r ct)
    (htree : m.trees.get t = some (ct.object r (pTop :: rest)))
    (htop : walk (childOf m) r ct.active = some pTop) (hname : name ≠ []) :
    ∃ m' pNode, pushed m t pTop name = .ok (m', pNode) ∧ TreeStep m m' t r (ct.enter name) ∧
      walk (childOf m') r (name :: ct.active) = some pNode := by
  cases hp : childOf m pTop name with
  | some p =>
    obtain ⟨m', h⟩ := pushed_present hT htree htop hp
    exact ⟨m', p, h⟩
  | none =>
    obtain ⟨m', h⟩ := pushed_absent hT htree htop hp hname
    exact ⟨m', _, h⟩

/-- Without a name there is no such child, and none can be made. -/
theorem pushed_unnamed (hT : Tracks m t r ct)
    (htop : walk (childOf m) r ct.active = some pTop) :
    pushed m t pTop [] = .error .clearedString := by
  obtain ⟨nTop, hnTop, -⟩ := hT.live htop
  have hfind : nTop.childNodes[([] : Name)]? = none := by
    cases hp : nTop.childNodes[([] : Name)]? with
    | none => rfl
    | some p =>
      have hchild : childOf m pTop [] = some p := by
        rw [childOf, hnTop]
        exact hp
      have hwalk : walk (childOf m) r ([] :: ct.active) = some p :=
        walk_cons_eq_some.mpr ⟨pTop, htop, hchild⟩
      exact absurd List.mem_cons_self (hT.named hwalk)
  rw [pushed, PerfNode.addChild, Mem.node_eq_ok.mpr hnTop, ok_bind, hfind]
  rfl

end AddNode
end RdkPerf

import RdkPerf.Proof.Answers

/-!
# A threshold message acts on whatever is innermost

`HandleThreshold` and `HandleExit` both address the top of the active stack. `HandleExit` then
compares the node's name with the message's; `HandleThreshold` does not. So a threshold that is
set on a call while another one runs inside it goes to the inner call, and one that is set while
nothing is open goes to the root.
-/

namespace RdkPerf

open Lib

/-- `p` is an open call of the thread, under this name. The root is not a call. -/
def OpenNamed (m : Mem) (pID : pid_t) (tID : pthread_t) (name : Name) (p : NodePtr) : Prop :=
  ∃ t tree node, m.treePtr pID tID = some t ∧ m.trees.get t = some tree ∧ p ∈ tree.activeNode ∧
    tree.rootNode ≠ some p ∧ m.nodes.get p = some node ∧ node.elementName = name

/-- What is expected of a threshold message that names `name`: from `m` to `m'` at most the
    threshold of one open call of that name changes, and without such a call nothing does and the
    answer says so. -/
structure ActsOnNamed (m : Mem) (pID : pid_t) (tID : pthread_t) (name : Name) (m' : Mem)
    (retVal : Bool) : Prop where
  one : m' = m ∨ ∃ p nUS, OpenNamed m pID tID name p ∧ m' = m.modifyNode p (·.setThreshold nUS)
  ignored : (∀ p, ¬ OpenNamed m pID tID name p) → m' = m ∧ retVal = false

/-- The message does nothing, or it reaches an innermost call of its name. A call that has the
    threshold already takes the message of another open call unharmed. -/
def Addressed (m : Mem) (pID : pid_t) (tID : pthread_t) (name : Name) (nUS : Int32) : Prop :=
  m.treePtr pID tID = none ∨ ¬ nUS > 0 ∨
    ∃ t tree p rest node, m.treePtr pID tID = some t ∧ m.trees.get t = some tree ∧
      tree.activeNode = p :: rest ∧ tree.rootNode ≠ some p ∧ m.nodes.get p = some node ∧
      (node.elementName = name ∨
        node.thresholdInUS = nUS ∧ ∃ q, OpenNamed m pID tID name q)

section Top

variable {m : Mem} {w : World} {pID : pid_t} {tID : pthread_t} {t : TreePtr} {r p : NodePtr}
  {ct : CallTree} {name : Name} {nUS : Int32}

/-- While a call is open the top of the stack is one. -/
theorem top_ne_root (hA : At m w pID tID t r ct) (hopen : OpenNamed m pID tID name p)
    {pTop : NodePtr} (htop : walk (childOf m) r ct.active = some pTop) : r ≠ pTop := by
  rintro rfl
  obtain ⟨t', tree, -, ht', htree, hmem, hroot, -⟩ := hopen
  obtain ⟨stack, htree₀, hspells⟩ := hA.tracks.tree
  obtain rfl : t = t' := Option.some.inj (hA.ptr.symm.trans ht')
  obtain rfl := Option.some.inj (htree.symm.trans htree₀)
  -- the root is at the empty path only
  have hnil : ct.active = [] := hA.tracks.tidy _ _ r htop rfl
  rw [hnil] at hspells
  obtain ⟨σ, hσ, hp⟩ := hspells.mem_iff.mp hmem
  obtain rfl := List.suffix_nil.mp hσ
  exact hroot hp

/-- Setting a threshold shows at its node unless the node has it already. -/
theorem setThreshold_eq_self_iff {node : PerfNode} (hnode : m.nodes.get p = some node) :
    m.modifyNode p (·.setThreshold nUS) = m ↔ node.thresholdInUS = nUS := by
  constructor
  · intro h
    have hget := congrArg (fun m : Mem => (m.nodes.get p).map (·.thresholdInUS)) h
    simp only [Mem.modifyNode_nodes, Store.get_modify, if_true, hnode] at hget
    exact (Option.some.inj hget).symm
  · intro h
    have hself : m.nodes.modify p (·.setThreshold nUS) = m.nodes := by
      refine Store.modify_eq_self fun n hn => ?_
      obtain rfl := Option.some.inj (hnode.symm.trans hn)
      rw [PerfNode.setThreshold, ← h]
    rw [Mem.modifyNode, hself]

/-- A threshold goes to the top: when that is what is expected. -/
theorem actsOnNamed_top_iff (hA : At m w pID tID t r ct) {pTop : NodePtr} {rest : List NodePtr}
    {node : PerfNode} (htree : m.trees.get t = some (ct.object r (pTop :: rest)))
    (htop : walk (childOf m) r ct.active = some pTop) (hnode : m.nodes.get pTop = some node) :
    ActsOnNamed m pID tID name (m.modifyNode pTop (·.setThreshold nUS)) true ↔
      r ≠ pTop ∧ (node.elementName = name ∨
        node.thresholdInUS = nUS ∧ ∃ q, OpenNamed m pID tID name q) := by
  constructor
  · intro h
    -- the answer says that a call was there
    obtain ⟨q, hq⟩ : ∃ q, OpenNamed m pID tID name q := by
      refine Classical.byContradiction fun hnone => ?_
      exact absurd (h.ignored fun p hp => hnone ⟨p, hp⟩).2 (by simp)
    refine ⟨top_ne_root hA hq htop, ?_⟩
    rcases h.one with hself | ⟨p, nUS', hp, heq⟩
    · exact Or.inr ⟨(setThreshold_eq_self_iff hnode).mp hself, q, hq⟩
    · by_cases hpTop : pTop = p
      · subst hpTop
        obtain ⟨_, _, node', -, -, -, -, hnode', hname⟩ := hp
        obtain rfl := Option.some.inj (hnode.symm.trans hnode')
        exact Or.inl hname
      · -- another node was set, so this one had its threshold
        have hget := congrArg (fun m : Mem => (m.nodes.get pTop).map (·.thresholdInUS)) heq
        simp only [Mem.modifyNode_nodes, Store.get_modify, if_true, if_neg hpTop, hnode] at hget
        exact Or.inr ⟨(Option.some.inj hget).symm, q, hq⟩
  · rintro ⟨hroot, hname | ⟨hthr, q, hq⟩⟩
    · have hopen : OpenNamed m pID tID name pTop :=
        ⟨t, _, node, hA.ptr, htree, List.mem_cons_self, fun h => hroot (Option.some.inj h), hnode,
          hname⟩
      exact ⟨Or.inr ⟨pTop, nUS, hopen, rfl⟩, fun hnone => absurd hopen (hnone pTop)⟩
    · exact ⟨Or.inl ((setThreshold_eq_self_iff hnode).mpr hthr), fun hnone => absurd hq (hnone q)⟩

end Top

namespace Service

/-- **A threshold message acts on the call it names** exactly when it does nothing, or its call is
    the innermost open one. -/
theorem threshold_acts_iff (ds : List Delivery) (s : State) (hs : run ds = .ok s) (pID : pid_t)
    (tID : pthread_t) (name : Name) (nUS : Int32) (env : Env) : ∃ m' retVal,
      handleThreshold s.mem ⟨pID, tID, some name, nUS⟩ env = .ok (m', retVal) ∧
        (ActsOnNamed s.mem pID tID name m' retVal ↔ Addressed s.mem pID tID name nUS) := by
  obtain ⟨w, hR⟩ := run_rep hs
  rw [handleThreshold, getTree_find hR, ok_bind]
  have hignored : ActsOnNamed s.mem pID tID name s.mem false := ⟨Or.inl rfl, fun _ => ⟨rfl, rfl⟩⟩
  cases ht : s.mem.treePtr pID tID with
  | none => exact ⟨s.mem, false, rfl, iff_of_true hignored (Or.inl ht)⟩
  | some t =>
    obtain ⟨r, ct, hA⟩ := hR.present ht
    obtain ⟨pTop, rest, htree, htop⟩ := hA.tracks.top
    obtain ⟨node, hnode, -⟩ := hA.tracks.live htop
    have hstack : top s.mem t = .ok pTop := by
      rw [top, Mem.tree_eq_ok.mpr htree]
      rfl
    simp only [hstack, ok_bind]
    by_cases hpos : nUS > 0
    · simp only [if_pos hpos, Mem.node_eq_ok.mpr hnode, ok_bind]
      refine ⟨_, true, rfl, ?_⟩
      rw [actsOnNamed_top_iff hA htree htop hnode]
      constructor
      · rintro ⟨hroot, hnamed⟩
        exact Or.inr (Or.inr ⟨t, _, pTop, rest, node, ht, htree, rfl,
          fun h => hroot (Option.some.inj h), hnode, hnamed⟩)
      · rintro (hnone | hneg | ⟨t', tree, p, rest', node', ht', htree', hstack', hroot, hnode', hnamed⟩)
        · exact absurd (ht.symm.trans hnone) (by simp)
        · exact absurd hpos hneg
        · obtain rfl := Option.some.inj (ht.symm.trans ht')
          obtain rfl := Option.some.inj (htree.symm.trans htree')
          obtain rfl : pTop = p := (List.cons.inj hstack').1
          obtain rfl := Option.some.inj (hnode.symm.trans hnode')
          exact ⟨fun h => hroot (congrArg some h), hnamed⟩
    · simp only [if_neg hpos]
      exact ⟨s.mem, false, rfl, iff_of_true hignored (Or.inr (Or.inl hpos))⟩

/-- `f` is entered. -/
def enteredF : List Delivery := handed ⟨threadA, 42⟩ .eEntry nameF

/-- `f` is entered, and `g` inside it. -/
def enteredFG : List Delivery :=
  handed ⟨threadA, 42⟩ .eEntry nameF ++ handed ⟨threadA, 42⟩ .eEntry nameG

/-- A threshold for `f` while `f` is innermost. -/
theorem enteredF_acts : ∃ s m', run enteredF = .ok s ∧
    handleThreshold s.mem ⟨42, 1, some nameF.bytes, 9⟩ {} = .ok (m', true) ∧
    ActsOnNamed s.mem 42 1 nameF.bytes m' true := by
  obtain ⟨s, hs, hread⟩ := ok_of_toOption_bind (show (run enteredF).toOption.bind
    (fun s => (handleThreshold s.mem ⟨42, 1, some nameF.bytes, 9⟩ {}).toOption.bind fun x =>
      (s.mem.treePtr 42 1).bind fun t => (s.mem.trees.get t).bind fun tree =>
        (s.mem.nodes.get 1).map fun node =>
          (x.2, tree.activeNode, tree.rootNode, node.elementName)) =
      some (true, [1, 0], some 0, nameF.bytes) by decide)
  obtain ⟨⟨m', retVal⟩, hrun, hread⟩ := ok_of_toOption_bind hread
  obtain ⟨t, ht, hread⟩ := Option.bind_eq_some_iff.mp hread
  obtain ⟨tree, htree, hread⟩ := Option.bind_eq_some_iff.mp hread
  obtain ⟨node, hnode, hread⟩ := Option.map_eq_some_iff.mp hread
  simp only [Prod.mk.injEq] at hread
  obtain ⟨rfl, hstack, hroot, hname⟩ := hread
  obtain ⟨m₁, retVal, hrun₁, hiff⟩ := threshold_acts_iff enteredF s hs 42 1 nameF.bytes 9 {}
  obtain ⟨rfl, rfl⟩ := Prod.mk.inj (Except.ok.inj (hrun.symm.trans hrun₁))
  refine ⟨s, m', hs, hrun, hiff.mpr (Or.inr (Or.inr ?_))⟩
  exact ⟨t, tree, 1, [0], node, ht, htree, hstack, by rw [hroot]; decide, hnode, Or.inl hname⟩

/-- A threshold for `f` while `g` is innermost goes to `g`. -/
theorem enteredG_misdirected : ∃ s m', run enteredFG = .ok s ∧
    handleThreshold s.mem ⟨42, 1, some nameF.bytes, 9⟩ {} = .ok (m', true) ∧
    ¬ ActsOnNamed s.mem 42 1 nameF.bytes m' true := by
  obtain ⟨s, hs, hread⟩ := ok_of_toOption_bind (show (run enteredFG).toOption.bind
    (fun s => (handleThreshold s.mem ⟨42, 1, some nameF.bytes, 9⟩ {}).toOption.bind fun x =>
      (s.mem.nodes.get 2).bind fun node => (x.1.nodes.get 2).map fun node' =>
        (x.2, node.elementName, node.thresholdInUS, node'.thresholdInUS)) =
      some (true, nameG.bytes, -1, 9) by decide)
  obtain ⟨⟨m', retVal⟩, hrun, hread⟩ := ok_of_toOption_bind hread
  obtain ⟨node, hnode, hread⟩ := Option.bind_eq_some_iff.mp hread
  obtain ⟨node', hnode', hread⟩ := Option.map_eq_some_iff.mp hread
  simp only [Prod.mk.injEq] at hread
  obtain ⟨rfl, hname, hbefore, hafter⟩ := hread
  -- the node of `g` has changed
  have hchanged : m'.nodes.get 2 ≠ s.mem.nodes.get 2 := by
    rw [hnode, hnode']
    intro h
    rw [Option.some.inj h, hbefore] at hafter
    exact absurd hafter (by decide)
  refine ⟨s, m', hs, hrun, fun hacts => ?_⟩
  rcases hacts.one with rfl | ⟨p, nUS, ⟨_, _, nodeP, -, -, -, -, hnodeP, hnameP⟩, rfl⟩
  · exact hchanged rfl
  · refine hchanged ?_
    rw [Mem.modifyNode_nodes, Store.get_modify, if_neg]
    rintro rfl
    obtain rfl := Option.some.inj (hnode.symm.trans hnodeP)
    rw [hname] at hnameP
    exact absurd hnameP (by decide)

end Service
end RdkPerf

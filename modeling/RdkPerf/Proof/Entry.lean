import RdkPerf.Proof.ProcessOps

/-!
# Finding the tree of an entered call, or creating it

Both builds enter a call the same way: find the process or insert one, find the thread's tree or
register a new one, give a new tree its root and its name, push the node. Between the second and
the third of these a tree without a root is registered, which no world has; `getTree_create`
therefore takes the first three together, and is the last file that looks inside them.
-/

namespace RdkPerf

open Lib

variable {m m' : Mem} {w : World} {pID : pid_t} {tID : pthread_t} {t : TreePtr} {r : NodePtr}
  {ct : CallTree} {n : Name}

/-- **`RDKPerf_InsertProcess`** registers the process, and that is all. -/
theorem insertProcess_spec (h : Rep m w) (pID : pid_t) :
    Evolve m w (RDKPerf_InsertProcess m pID) (w.register pID) := by
  have hget : ∀ p : pid_t, (RDKPerf_InsertProcess m pID).processMap[p]? =
      if p = pID ∧ m.processMap[p]? = none then some { idProcess := pID }
      else m.processMap[p]? := by
    intro p
    rw [RDKPerf_InsertProcess, Std.ExtTreeMap.getElem?_insertIfNew]
    by_cases hp : p = pID
    · subst hp
      by_cases hmem : p ∈ m.processMap
      · have hne : m.processMap[p]? ≠ none := by simpa using hmem
        rw [if_neg fun hk => hk.2 hmem, if_neg fun hk => hne hk.2]
      · have hnone : m.processMap[p]? = none := by simpa using hmem
        rw [if_pos ⟨Std.ReflCmp.compare_self, hmem⟩, if_pos ⟨rfl, hnone⟩]
    · rw [if_neg fun hk => hp (Std.LawfulEqCmp.eq_of_compare hk.1).symm, if_neg fun hk => hp hk.1]
  refine .of_same h rfl rfl (fun p s => ?_) rfl (fun p => ?_) fun {p proc} hp => ?_
  · unfold Mem.treePtr
    rw [hget]
    split
    · next hk =>
      rw [hk.2]
      exact Std.ExtTreeMap.getElem?_empty
    · rfl
  · rw [Std.ExtTreeMap.contains_eq_isSome_getElem?, hget, World.register_registered,
      ← h.registered, Std.ExtTreeMap.contains_eq_isSome_getElem?]
    by_cases hp : p = pID
    · subst hp
      cases m.processMap[p]? <;> simp
    · simp [hp]
  · rw [hget] at hp
    split at hp
    · next hk =>
      obtain rfl := Option.some.inj hp
      exact hk.1.symm
    · exact h.idProcess hp

/-- What an overload of `AddNode` writes into a tree that has no node yet. -/
def NamesTree (name : PerfTree → Except Fault PerfTree) (tID : pthread_t)
    (threadName : Except Fault Name) : Prop :=
  ∀ r : NodePtr, name { rootNode := some r, activeNode := [r] } =
    (fun n => { idThread := tID, rootNode := some r, threadName := n, activeNode := [r] }) <$>
      threadName

theorem namesTree_record (caller : Caller) :
    NamesTree (PerfTree.nameFromCaller caller) caller.tid (.ok caller.threadName.bytes) :=
  fun _ => rfl

theorem namesTree_entry (tID : pthread_t) (szThreadName : Option Name) :
    NamesTree (PerfTree.nameFromEntry tID szThreadName) tID (fitThreadName szThreadName) := by
  intro r
  cases szThreadName with
  | none => rfl
  | some n =>
    simp only [PerfTree.nameFromEntry, PerfTree.copyThreadName, fitThreadName]
    split
    · simp
    · rfl

/-- The memory represents the world with `ct` in place, and `pTop` is the top of its stack. -/
structure Entered (m : Mem) (w : World) (pID : pid_t) (tID : pthread_t) (t : TreePtr)
    (r pTop : NodePtr) (ct : CallTree) : Prop where
  entry : At m w pID tID t r ct
  tree : ∃ rest, m.trees.get t = some (ct.object r (pTop :: rest))
  top : walk (childOf m) r ct.active = some pTop

theorem At.entered {m : Mem} {w : World} (hA : At m w pID tID t r ct) :
    ∃ pTop, Entered m w pID tID t r pTop ct := by
  obtain ⟨pTop, rest, htree, htop⟩ := hA.tracks.top
  exact ⟨pTop, hA, ⟨rest, htree⟩, htop⟩

/-- A tree that has nodes: `m_activeNode.top()`. -/
theorem topOrRoot_of_entered {pTop : NodePtr} (h : Entered m w pID tID t r pTop ct)
    (name : PerfTree → Except Fault PerfTree) : PerfTree.topOrRoot m t name = .ok (m, pTop) := by
  obtain ⟨rest, htree⟩ := h.tree
  rw [PerfTree.topOrRoot, Mem.tree_eq_ok.mpr htree]
  rfl

/-- A new root has no children … -/
theorem walk_root {m : Mem} (hroot : m.nodes.get r = some .root) (σ : Path) :
    walk (childOf m) r σ = if σ = [] then some r else none := by
  have hleaf : ∀ k, childOf m r k = none := by
    intro k
    rw [childOf, hroot]
    exact Std.ExtTreeMap.getElem?_empty
  induction σ with
  | nil => rfl
  | cons k σ ih =>
    rw [walk_cons, ih, if_neg (show ¬ (k :: σ = []) by simp)]
    split
    · exact hleaf k
    · rfl

/-- … and a tree that consists of it is new. -/
theorem tracks_root {m : Mem} {n : Name}
    (htree : m.trees.get t = some ((CallTree.init tID n).object r [r]))
    (hroot : m.nodes.get r = some .root) : Tracks m t r (.init tID n) := by
  have hwalk := walk_root hroot
  refine ⟨⟨[r], htree, rfl⟩, ?_, ?_, ?_, ?_⟩
  · intro σ σ' v hσ hσ'
    rw [hwalk] at hσ hσ'
    split at hσ
    · next h =>
      split at hσ'
      · next h' => rw [h, h']
      · exact absurd hσ' (by simp)
    · exact absurd hσ (by simp)
  · intro σ q hq
    rw [hwalk] at hq
    split at hq
    · next hσ =>
      obtain rfl := Option.some.inj hq
      exact ⟨.root, hroot, by rw [hσ]; rfl, by rw [hσ]; rfl, if_pos hσ⟩
    · exact absurd hq (by simp)
  · intro σ hσ
    rw [hwalk] at hσ
    split at hσ
    · exact absurd hσ (by simp)
    · next hne => exact if_neg hne
  · intro σ q hq
    rw [hwalk] at hq
    split at hq
    · next hσ => rw [hσ]; exact List.not_mem_nil
    · exact absurd hq (by simp)

/-- The memory with a tree registered for a thread and its root made, cell by cell. -/
structure Planted (m m' : Mem) (pID : pid_t) (tID : pthread_t) (n : Name) : Prop where
  nodes : ∀ q, m'.nodes.get q = if q = m.nodes.next then some .root else m.nodes.get q
  next : m.nodes.next ≤ m'.nodes.next
  trees : ∀ t', m'.trees.get t' = if t' = m.trees.next then
    some ((CallTree.init tID n).object m.nodes.next [m.nodes.next]) else m.trees.get t'
  treePtr : ∀ p s, m'.treePtr p s =
    if p = pID ∧ s = tID then some m.trees.next else m.treePtr p s
  contains : ∀ p, m'.processMap.contains p = m.processMap.contains p
  idProcess : (∀ {p : pid_t} {proc : PerfProcess}, m.processMap[p]? = some proc →
    proc.idProcess = p) → ∀ {p : pid_t} {proc : PerfProcess}, m'.processMap[p]? = some proc →
      proc.idProcess = p

/-- The process with the tree in its thread map, -/
def PerfProcess.withTree (tID : pthread_t) (t : TreePtr) (p : PerfProcess) : PerfProcess :=
  { p with mapThreads := p.mapThreads.insert tID t }

/-- and with the time of it in its clock. -/
def PerfProcess.marked (env : Env) (p : PerfProcess) : PerfProcess :=
  { p with clock := p.clock.now .marker env.marker }

/-- The memory after `NewTree`. -/
def Mem.registerTree (m : Mem) (pID : pid_t) (tID : pthread_t) (env : Env) : Mem :=
  (({ m with trees := m.trees.alloc {} } : Mem).modifyProcess pID
    (·.withTree tID m.trees.next)).modifyProcess pID (·.marked env)

theorem newTree_eq {proc : PerfProcess} (hproc : m.processMap[pID]? = some proc)
    (hptr : m.treePtr pID tID = none) (env : Env) :
    PerfProcess.newTree m pID tID env = .ok (m.registerTree pID tID env, some m.trees.next) := by
  rw [PerfProcess.newTree, Mem.process_eq_ok.mpr hproc, ok_bind, ← Mem.treePtr_of_process hproc,
    hptr]
  rfl

/-- The first `AddNode` of the new tree gives it its root, or fails where the name does. -/
theorem topOrRoot_registerTree (env : Env) (name : PerfTree → Except Fault PerfTree) :
    PerfTree.topOrRoot (m.registerTree pID tID env) m.trees.next name =
      (name { rootNode := some m.nodes.next, activeNode := [m.nodes.next] } >>= fun tree =>
        .ok (({ m.registerTree pID tID env with nodes := m.nodes.alloc .root } : Mem).modifyTree
          m.trees.next fun _ => tree, m.nodes.next)) := by
  have htree : (m.registerTree pID tID env).trees.get m.trees.next = some {} := by
    show (m.trees.alloc {}).get _ = _
    rw [Store.get_alloc, if_pos rfl]
  rw [PerfTree.topOrRoot, Mem.tree_eq_ok.mpr htree]
  rfl

theorem treePtr_registerTree {proc : PerfProcess} (hproc : m.processMap[pID]? = some proc)
    (env : Env) (p : pid_t) (s : pthread_t) : (m.registerTree pID tID env).treePtr p s =
      if p = pID ∧ s = tID then some m.trees.next else m.treePtr p s := by
  rw [Mem.registerTree, Mem.treePtr_modifyProcess, Mem.treePtr_modifyProcess,
    Mem.modifyProcess_processMap, Std.ExtTreeMap.getElem?_modify_self]
  show (if p = pID then (Option.map _ m.processMap[pID]?).bind _ else
    if p = pID then m.processMap[pID]?.bind _ else m.treePtr p s) = _
  rw [hproc]
  by_cases hp : p = pID
  · rw [if_pos hp]
    subst hp
    rw [Mem.treePtr_of_process hproc]
    simp only [Option.map_some, Option.bind_some, PerfProcess.withTree, PerfProcess.marked,
      Std.ExtTreeMap.getElem?_insert, true_and]
    by_cases hs : s = tID
    · simp [hs]
    · rw [if_neg fun hk => hs (Std.LawfulEqCmp.eq_of_compare hk).symm, if_neg hs]
  · rw [if_neg hp, if_neg hp, if_neg fun hk => hp hk.1]

theorem planted {proc : PerfProcess} (hproc : m.processMap[pID]? = some proc) (env : Env)
    (n : Name) : Planted m (({ m.registerTree pID tID env with nodes := m.nodes.alloc .root } :
      Mem).modifyTree m.trees.next
        fun _ => (CallTree.init tID n).object m.nodes.next [m.nodes.next]) pID tID n where
  nodes q := Store.get_alloc m.nodes .root q
  next := Nat.le_succ _
  trees t' := by
    show ((m.trees.alloc {}).modify m.trees.next _).get t' = _
    rw [Store.get_modify, Store.get_alloc]
    split
    · rfl
    · rfl
  treePtr := treePtr_registerTree hproc env
  contains p := by
    show (m.registerTree pID tID env).processMap.contains p = _
    rw [Mem.registerTree, contains_modifyProcess, contains_modifyProcess]
  idProcess hid := fun hp =>
    idProcess_modifyProcess (f := (·.marked env)) (fun _ => rfl)
      (idProcess_modifyProcess (f := (·.withTree tID m.trees.next)) (fun _ => rfl) hid) hp

/-- The world of the planted memory has the new tree, and the others as they were. -/
theorem Planted.entered (hP : Planted m m' pID tID n) (h : Rep m w) (habs : w.tree pID tID = none) :
    Evolve m w m' (w.set pID tID (some (.init tID n))) ∧
      Entered m' (w.set pID tID (some (.init tID n))) pID tID m.trees.next m.nodes.next
        m.nodes.next (.init tID n) := by
  have hdead : m.nodes.get m.nodes.next = none := Store.get_next _
  have hroot : m'.nodes.get m.nodes.next = some .root := by rw [hP.nodes, if_pos rfl]
  have hT : Tracks m' m.trees.next m.nodes.next (.init tID n) :=
    tracks_root (by rw [hP.trees, if_pos rfl]) hroot
  have hkey : ∀ {p s t' r' ct'}, At m w p s t' r' ct' → ¬ (p = pID ∧ s = tID) := by
    rintro p s t' r' ct' hA ⟨rfl, rfl⟩
    exact absurd (hA.spec.symm.trans habs) (by simp)
  have hold : ∀ {q}, m.nodes.get q ≠ none → m'.nodes.get q = m.nodes.get q := by
    intro q hq
    rw [hP.nodes, if_neg]
    rintro rfl
    exact hq hdead
  have hgained : ∀ {q}, Reaches (childOf m') m.nodes.next q → False ∨ m.nodes.get q = none := by
    rintro q ⟨σ, hσ⟩
    rw [walk_root hroot] at hσ
    split at hσ
    · exact Or.inr ((Option.some.inj hσ) ▸ hdead)
    · exact absurd hσ (by simp)
  have hothers : ∀ {p s t' r' ct'}, ¬ (p = pID ∧ s = tID) → At m w p s t' r' ct' →
      t' ≠ m.trees.next ∧ ∀ q, Reaches (childOf m) r' q → ¬ False := by
    intro p s t' r' ct' _ hA
    obtain ⟨stack, htree, -⟩ := hA.tracks.tree
    exact ⟨Store.ne_next htree, fun _ _ hf => hf⟩
  have hw : ∀ p s, (w.set pID tID (some (.init tID n))).tree p s =
      if p = pID ∧ s = tID then some (.init tID n) else w.tree p s :=
    fun p s => World.set_tree w pID p tID s (some (.init tID n))
  have hreg : ∀ p, m'.processMap.contains p =
      (w.set pID tID (some (.init tID n))).registered p :=
    fun p => (hP.contains p).trans (h.registered p)
  have hthread : (CallTree.init tID n).idThread = tID := rfl
  obtain ⟨hrep, hrest⟩ := h.put hT hthread (fun _ => False) hothers hreg (hP.idProcess h.idProcess)
    hP.treePtr hw hgained (fun _ => hold) (fun ht' _ => by rw [hP.trees, if_neg ht'])
  refine ⟨⟨hrep, ?_, ?_, ?_, hP.next⟩, ⟨⟨?_, ?_, rfl, hT⟩, ⟨[], ?_⟩, rfl⟩⟩
  · intro p s t' r' ct₁ ct₂ hA hct₂
    obtain ⟨hA₂, hw⟩ := hrest (hkey hA) hA
    obtain rfl := Option.some.inj (hA₂.spec.symm.trans hct₂)
    exact ⟨hA₂, fun {π q} hq => (hw π).trans hq⟩
  · intro p s t' r' ct' q hA hn _
    rw [World.set_tree, if_neg (hkey hA), hA.spec] at hn
    exact absurd hn (by simp)
  · intro q hlt hq
    rw [hP.nodes, if_neg (Nat.ne_of_lt hlt)]
    exact hq
  · rw [hP.treePtr, if_pos ⟨rfl, rfl⟩]
  · rw [World.set_tree, if_pos ⟨rfl, rfl⟩]
  · rw [hP.trees, if_pos rfl]

/-- **A new tree**: `NewTree` registers it, and its first `AddNode` gives it a root. -/
theorem newTree_spec (h : Rep m w) (hreg : w.registered pID = true)
    (habs : w.tree pID tID = none) (env : Env) :
    ∃ m₁, PerfProcess.newTree m pID tID env = .ok (m₁, some m.trees.next) ∧
      ∀ {name threadName}, NamesTree name tID threadName →
        match threadName with
        | .error e => PerfTree.topOrRoot m₁ m.trees.next name = .error e
        | .ok n => ∃ m₂, PerfTree.topOrRoot m₁ m.trees.next name = .ok (m₂, m.nodes.next) ∧
          Evolve m w m₂ (w.set pID tID (some (.init tID n))) ∧
          Entered m₂ (w.set pID tID (some (.init tID n))) pID tID m.trees.next m.nodes.next
            m.nodes.next (.init tID n) := by
  obtain ⟨proc, hproc⟩ := h.process_of_registered hreg
  have hptr : m.treePtr pID tID = none := h.treePtr_none_iff.mpr habs
  refine ⟨m.registerTree pID tID env, newTree_eq hproc hptr env,
    fun {name threadName} hname => ?_⟩
  rw [topOrRoot_registerTree, hname]
  cases threadName with
  | error e => rfl
  | ok n => exact ⟨_, rfl, (planted hproc env n).entered h habs⟩

namespace Service

variable {bCreate : Bool} {env : Env} {pProcess : ProcPtr}

/-- `GetTree` once the process is there. -/
def getTreeIn (m : Mem) (pProcess : ProcPtr) (tID : pthread_t) (bCreate : Bool) (env : Env) :
    Except Fault (Mem × Option TreePtr) := do
  match ← PerfProcess.getTree m pProcess tID with
  | some pTree => pure (m, some pTree)
  | none => if bCreate then PerfProcess.newTree m pProcess tID env else pure (m, none)

theorem getTree_found (h : RDKPerf_FindProcess m pID = some pProcess) :
    getTree m pID tID bCreate env = getTreeIn m pProcess tID bCreate env := by
  rw [getTree, h]
  rfl

theorem getTree_inserted (h : RDKPerf_FindProcess m pID = none) :
    getTree m pID tID true env = getTreeIn (RDKPerf_InsertProcess m pID) pID tID true env := by
  rw [getTree, h]
  rfl

theorem getTree_missed (h : RDKPerf_FindProcess m pID = none) :
    getTree m pID tID false env = .ok (m, none) := by
  rw [getTree, h]
  rfl

end Service

/-- **Find or create**, in the service: with `bCreate` set, `GetTree` and the first lines of
    `AddNode` put the tree of `treeOrInit` in place. -/
theorem getTree_create (h : Rep m w) (pID : pid_t) (tID : pthread_t) (env : Env) :
    ∃ m₁ t, Service.getTree m pID tID true env = .ok (m₁, some t) ∧
      ∀ {name threadName}, NamesTree name tID threadName →
        match w.treeOrInit pID tID threadName with
        | .error e => PerfTree.topOrRoot m₁ t name = .error e
        | .ok ct => ∃ m₂ r pTop, PerfTree.topOrRoot m₁ t name = .ok (m₂, pTop) ∧
          Evolve m w m₂ ((w.register pID).set pID tID (some ct)) ∧
          Entered m₂ ((w.register pID).set pID tID (some ct)) pID tID t r pTop ct := by
  -- the process is there, or is inserted
  obtain ⟨m₀, hcall, hE₀⟩ : ∃ m₀,
      Service.getTree m pID tID true env = Service.getTreeIn m₀ pID tID true env ∧
        Evolve m w m₀ (w.register pID) := by
    cases hreg : w.registered pID with
    | true =>
      refine ⟨m, Service.getTree_found ?_, ?_⟩
      · rw [findProcess_eq h, if_pos hreg]
      · rw [World.register_of_registered hreg]
        exact .refl h
    | false =>
      refine ⟨_, Service.getTree_inserted ?_, insertProcess_spec h pID⟩
      rw [findProcess_eq h, hreg]
      rfl
  have hreg₀ : (w.register pID).registered pID = true := by simp
  have hget := getTree_spec hE₀.rep hreg₀ tID
  cases hct : w.tree pID tID with
  | some ct =>
    obtain ⟨t, r, hA⟩ := hE₀.rep.at_of_tree hct
    obtain ⟨pTop, hent⟩ := hA.entered
    have hset : (w.register pID).set pID tID (some ct) = w.register pID := by
      refine World.ext rfl (funext fun p => funext fun s => ?_)
      rw [World.set_tree]
      split
      · next hk => rw [hk.1, hk.2]; exact hct.symm
      · rfl
    refine ⟨m₀, t, ?_, fun {name threadName} _ => ?_⟩
    · rw [hcall, Service.getTreeIn, hget, hA.ptr]
      rfl
    · simp only [World.treeOrInit, hct, hset]
      exact ⟨m₀, r, pTop, topOrRoot_of_entered hent name, hE₀, hent⟩
  | none =>
    have hptr : m₀.treePtr pID tID = none := hE₀.rep.treePtr_none_iff.mpr hct
    obtain ⟨m₁, hm₁, hrest⟩ := newTree_spec hE₀.rep hreg₀ hct env
    refine ⟨m₁, m₀.trees.next, ?_, fun {name threadName} hname => ?_⟩
    · rw [hcall, Service.getTreeIn, hget, hptr]
      exact hm₁
    · simp only [World.treeOrInit, hct]
      have hthis := hrest hname
      cases threadName with
      | error e => exact hthis
      | ok n =>
        obtain ⟨m₂, hm₂, hE, hent⟩ := hthis
        exact ⟨m₂, _, _, hm₂, hE₀.trans hE fun h _ => h, hent⟩

/-- The node of an entered call, below the top. -/
theorem Entered.push {pTop : NodePtr} (h : Rep m w) (hent : Entered m w pID tID t r pTop ct)
    {name : Name} (hname : name ≠ []) : ∃ m' pNode, pushed m t pTop name = .ok (m', pNode) ∧
      Evolve m w m' (w.set pID tID (some (ct.enter name))) ∧
      At m' (w.set pID tID (some (ct.enter name))) pID tID t r (ct.enter name) ∧
      walk (childOf m') r (name :: ct.active) = some pNode := by
  obtain ⟨rest, htree⟩ := hent.tree
  obtain ⟨m', pNode, hm', hS, hw⟩ := pushed_spec hent.entry.tracks htree hent.top hname
  have hE := h.step hent.entry hS rfl
  have hct : (w.set pID tID (some (ct.enter name))).tree pID tID = some (ct.enter name) := by
    rw [World.set_tree, if_pos ⟨rfl, rfl⟩]
  obtain ⟨hA, -⟩ := hE.stays hent.entry hct
  exact ⟨m', pNode, hm', hE, hA, hw⟩

theorem Entered.push_unnamed {pTop : NodePtr} (hent : Entered m w pID tID t r pTop ct) :
    pushed m t pTop [] = .error .clearedString :=
  pushed_unnamed hent.entry.tracks hent.top

end RdkPerf

import RdkPerf.Proof.TreeOps

/-!
# What the methods of a process do to its trees

One specification for each method of `PerfProcess` and for the functions of the process map, over
a memory that represents a world. The loops are the point: `CloseInactiveThreads` erases from the
map it walks, and `ReportData` and the destructor work through trees that must not share a node.
Their invariant is always the same — after some entries, the memory represents the world in which
exactly those threads were dealt with (`World.sweepOver`).
-/

namespace RdkPerf

open Lib

variable {m m' : Mem} {w w' : World} {pID : pid_t} {tID : pthread_t} {t : TreePtr} {r : NodePtr}
  {ct : CallTree}

/-! ## Threads dealt with so far -/

namespace World

/-- `sweep`, for the threads in `done` only. -/
def sweepOver (w : World) (pID : pid_t) (f : CallTree → Option CallTree) (done : List pthread_t) :
    World :=
  { w with tree := fun p s => if p = pID ∧ s ∈ done then (w.tree p s).bind f else w.tree p s }

variable {f : CallTree → Option CallTree} {done : List pthread_t}

@[simp] theorem sweepOver_tree (p : pid_t) (s : pthread_t) : (w.sweepOver pID f done).tree p s =
    if p = pID ∧ s ∈ done then (w.tree p s).bind f else w.tree p s := rfl

@[simp] theorem sweepOver_registered : (w.sweepOver pID f done).registered = w.registered := rfl

@[simp] theorem sweepOver_nil : w.sweepOver pID f [] = w := by
  refine World.ext rfl (funext fun p => funext fun s => ?_)
  simp

theorem sweepOver_concat (hct : w.tree pID tID = some ct) :
    w.sweepOver pID f (done ++ [tID]) = (w.sweepOver pID f done).set pID tID (f ct) := by
  refine World.ext rfl (funext fun p => funext fun s => ?_)
  rw [set_tree, sweepOver_tree, sweepOver_tree]
  by_cases hk : p = pID ∧ s = tID
  · rw [if_pos hk, hk.1, hk.2, if_pos (by simp), hct]
    rfl
  · rw [if_neg hk]
    by_cases hd : p = pID ∧ s ∈ done
    · rw [if_pos hd, if_pos ⟨hd.1, List.mem_append_left _ hd.2⟩]
    · rw [if_neg hd, if_neg]
      rintro ⟨hp, hs⟩
      rcases List.mem_append.mp hs with hs | hs
      · exact hd ⟨hp, hs⟩
      · exact hk ⟨hp, List.mem_singleton.mp hs⟩

/-- Once every thread that has a tree was dealt with, the process was. -/
theorem sweepOver_all (hall : ∀ s, w.tree pID s ≠ none → s ∈ done) :
    w.sweepOver pID f done = w.sweep pID f := by
  refine World.ext rfl (funext fun p => funext fun s => ?_)
  rw [sweepOver_tree, sweep_tree]
  by_cases hp : p = pID
  · rw [if_pos hp]
    by_cases hs : s ∈ done
    · rw [if_pos ⟨hp, hs⟩]
    · rw [if_neg fun h => hs h.2]
      have hnone : w.tree p s = none := Classical.byContradiction fun h => hs (hall s (hp ▸ h))
      rw [hnone]
      rfl
  · rw [if_neg fun h => hp h.1, if_neg hp]

end World

/-! ## The maps -/

theorem contains_modifyProcess (f : PerfProcess → PerfProcess) (p : pid_t) :
    (m.modifyProcess pID f).processMap.contains p = m.processMap.contains p := by
  rw [Std.ExtTreeMap.contains_eq_isSome_getElem?, Std.ExtTreeMap.contains_eq_isSome_getElem?,
    Mem.modifyProcess_processMap, Std.ExtTreeMap.getElem?_modify]
  split
  · next h =>
    rw [Std.LawfulEqCmp.eq_of_compare h]
    cases m.processMap[p]? <;> rfl
  · rfl

theorem idProcess_modifyProcess {f : PerfProcess → PerfProcess}
    (hf : ∀ proc, (f proc).idProcess = proc.idProcess)
    (hid : ∀ {p : pid_t} {proc : PerfProcess}, m.processMap[p]? = some proc → proc.idProcess = p)
    {p : pid_t} {proc : PerfProcess} (h : (m.modifyProcess pID f).processMap[p]? = some proc) :
    proc.idProcess = p := by
  rw [Mem.modifyProcess_processMap, Std.ExtTreeMap.getElem?_modify] at h
  split at h
  · next hp =>
    obtain rfl := Std.LawfulEqCmp.eq_of_compare hp
    obtain ⟨proc₀, hproc₀, rfl⟩ := Option.map_eq_some_iff.mp h
    exact (hf proc₀).trans (hid hproc₀)
  · exact hid h

theorem treePtr_erase (p : pid_t) (s : pthread_t) :
    (m.modifyProcess pID fun proc => { proc with mapThreads := proc.mapThreads.erase tID }).treePtr
      p s = if p = pID ∧ s = tID then none else m.treePtr p s := by
  rw [Mem.treePtr_modifyProcess]
  by_cases hp : p = pID
  · rw [if_pos hp]
    subst hp
    unfold Mem.treePtr
    cases m.processMap[p]? with
    | none => simp
    | some proc =>
      rw [Option.bind_some, Option.bind_some, Std.ExtTreeMap.getElem?_erase]
      by_cases hs : s = tID
      · simp [hs]
      · rw [if_neg (by simpa using fun h : tID = s => hs h.symm), if_neg fun h => hs h.2]
  · rw [if_neg hp, if_neg fun h => hp h.1]

/-- Neither the id nor the thread map changes: the clock does. -/
theorem Evolve.modifyProcess (h : Rep m w) {f : PerfProcess → PerfProcess}
    (hid : ∀ proc, (f proc).idProcess = proc.idProcess)
    (hmap : ∀ proc, (f proc).mapThreads = proc.mapThreads) :
    Evolve m w (m.modifyProcess pID f) w := by
  refine .of_same h rfl rfl (fun p s => ?_) rfl (fun p => ?_)
    (idProcess_modifyProcess hid h.idProcess)
  · rw [Mem.treePtr_modifyProcess]
    split
    · next hp => simp only [hmap, hp, Mem.treePtr]
    · rfl
  · rw [contains_modifyProcess]
    exact h.registered p

theorem findProcess_eq (h : Rep m w) :
    RDKPerf_FindProcess m pID = if w.registered pID then some pID else none := by
  rw [RDKPerf_FindProcess, h.registered]

/-! ## Looking at the trees of a process -/

/-- What a loop over the thread map meets. -/
theorem Rep.entry (h : Rep m w) {proc : PerfProcess} (hproc : m.processMap[pID]? = some proc)
    (he : (tID, t) ∈ proc.mapThreads.toList) : ∃ r ct, At m w pID tID t r ct :=
  h.present (Mem.treePtr_eq_some.mpr ⟨proc, hproc, mem_entries.mp he⟩)

/-- Every thread with a tree is met. -/
theorem Rep.mem_keys (h : Rep m w) {proc : PerfProcess} (hproc : m.processMap[pID]? = some proc)
    (hct : w.tree pID tID ≠ none) : tID ∈ proc.mapThreads.toList.map Prod.fst := by
  obtain ⟨ct, hct⟩ := Option.ne_none_iff_exists'.mp hct
  obtain ⟨t, r, hA⟩ := h.at_of_tree hct
  have ht := hA.ptr
  rw [Mem.treePtr_of_process hproc] at ht
  exact List.mem_map.mpr ⟨(tID, t), mem_entries.mpr ht, rfl⟩

theorem getTree_spec (h : Rep m w) (hreg : w.registered pID = true) (tID : pthread_t) :
    PerfProcess.getTree m pID tID = .ok (m.treePtr pID tID) := by
  obtain ⟨proc, hproc⟩ := h.process_of_registered hreg
  rw [PerfProcess.getTree, Mem.process_eq_ok.mpr hproc, ok_bind, Mem.treePtr_of_process hproc]
  cases proc.mapThreads[tID]? with
  | some t => rfl
  | none =>
    have hloop : proc.mapThreads.toList.forM (fun entry => do
        let _ ← m.tree entry.2) = .ok () := by
      refine forM_ok fun ⟨s, t⟩ he => ?_
      obtain ⟨r, ct, hA⟩ := h.entry hproc he
      obtain ⟨stack, htree, -⟩ := hA.tracks.tree
      rw [Mem.tree_eq_ok.mpr htree]
      rfl
    show (List.forM _ _ >>= _) = _
    rw [hloop]
    rfl

theorem showTrees_spec (h : Rep m w) (hreg : w.registered pID = true) :
    PerfProcess.showTrees m pID = .ok () := by
  obtain ⟨proc, hproc⟩ := h.process_of_registered hreg
  rw [PerfProcess.showTrees, Mem.process_eq_ok.mpr hproc, ok_bind]
  refine forM_ok fun ⟨s, t⟩ he => ?_
  obtain ⟨r, ct, hA⟩ := h.entry hproc he
  obtain ⟨pTop, rest, htree, htop⟩ := hA.tracks.top
  obtain ⟨n, hn, -⟩ := hA.tracks.live htop
  show PerfProcess.showTree m t = _
  rw [PerfProcess.showTree, Mem.tree_eq_ok.mpr htree, ok_bind]
  simp only [CallTree.object]
  rw [Mem.node_eq_ok.mpr hn]
  rfl

/-- A loop over the thread map stands on an entry that it has not dealt with yet. -/
theorem Rep.next_entry (h : Rep m w) {proc : PerfProcess} (hproc : m.processMap[pID]? = some proc)
    {done rest : List (pthread_t × TreePtr)} {f : CallTree → Option CallTree}
    (hsplit : proc.mapThreads.toList = done ++ (tID, t) :: rest)
    (hE : Evolve m w m' (w.sweepOver pID f (done.map Prod.fst))) :
    ∃ r ct, w.tree pID tID = some ct ∧
      At m' (w.sweepOver pID f (done.map Prod.fst)) pID tID t r ct := by
  have hmem : (tID, t) ∈ proc.mapThreads.toList := by rw [hsplit]; simp
  obtain ⟨r, ct, hA⟩ := h.entry hproc hmem
  have hfresh : tID ∉ done.map Prod.fst := by
    intro hs
    obtain ⟨e, he, rfl⟩ := List.mem_map.mp hs
    exact (entries_split hsplit).2 e.2 he
  have hct : (w.sweepOver pID f (done.map Prod.fst)).tree pID tID = some ct := by
    rw [World.sweepOver_tree, if_neg fun hk => hfresh hk.2]
    exact hA.spec
  exact ⟨r, ct, hA.spec, (hE.stays hA hct).1⟩

/-! ## Removing trees -/

/-- The tree is deleted and its entry erased. -/
theorem Evolve.eraseTree (h : Rep m w) (hA : At m w pID tID t r ct) (hG : TreeGone m m' t r) :
    Evolve m w
      (m'.modifyProcess pID fun p => { p with mapThreads := p.mapThreads.erase tID })
      (w.set pID tID none) := by
  have hinj : ∀ {p s t' r' ct'}, At m w p s t' r' ct' → p = pID ∧ s = tID → t' = t ∧ r' = r := by
    rintro p s t' r' ct' hA' ⟨rfl, rfl⟩
    obtain rfl := Option.some.inj (hA'.ptr.symm.trans hA.ptr)
    exact ⟨rfl, Rep.root_eq hA' hA⟩
  refine h.drop (fun p s => p = pID ∧ s = tID) (fun p => ?_)
    (fun hp => idProcess_modifyProcess (f := fun p => { p with mapThreads := p.mapThreads.erase tID })
      (fun _ => rfl) (fun hp => h.idProcess (hG.processMap ▸ hp)) hp) ?_ ?_ ?_ ?_ ?_ hG.next ?_
  · rw [contains_modifyProcess, hG.processMap]
    exact h.registered p
  · intro p s hk
    rw [treePtr_erase, if_pos hk, World.set_tree, if_pos hk]
    exact ⟨rfl, rfl⟩
  · intro p s hk
    rw [treePtr_erase, if_neg hk, World.set_tree, if_neg hk, Mem.treePtr_congr hG.processMap]
    exact ⟨rfl, rfl⟩
  · intro p s t' r' ct' q hk hA' hq
    obtain ⟨rfl, rfl⟩ := hinj hA' hk
    exact hG.inside hq
  · intro q hq
    exact hG.outside (hq ⟨rfl, rfl⟩ hA)
  · intro q hq
    by_cases hr : Reaches (childOf m) r q
    · exact hG.inside hr
    · exact (hG.outside hr).trans hq
  · intro p s t' r' ct' hk hA'
    refine hG.trees fun ht => hk ?_
    subst ht
    exact h.ptr_inj hA' hA

/-- **`RemoveTree`** removes the tree of that thread and says whether there was one. -/
theorem removeTree_spec (h : Rep m w) (hreg : w.registered pID = true) (tID : pthread_t) :
    ∃ m', PerfProcess.removeTree m pID tID = .ok (m', (w.tree pID tID).isSome) ∧
      Evolve m w m' (w.set pID tID none) := by
  obtain ⟨proc, hproc⟩ := h.process_of_registered hreg
  rw [PerfProcess.removeTree, Mem.process_eq_ok.mpr hproc, ok_bind,
    ← Mem.treePtr_of_process hproc]
  cases ht : m.treePtr pID tID with
  | none =>
    refine ⟨m, ?_, ?_⟩
    · rw [h.absent ht]
      rfl
    · rw [World.set_none_of_none (h.absent ht)]
      exact .refl h
  | some t =>
    obtain ⟨r, ct, hA⟩ := h.present ht
    obtain ⟨m₁, hm₁, hG⟩ := delete_spec hA.tracks
    refine ⟨_, ?_, .eraseTree h hA hG⟩
    show (PerfTree.delete m t >>= _) = _
    rw [hm₁, hA.spec]
    rfl

/-- **`CloseInactiveThreads`** removes what is inactive, and answers whether anything was. -/
theorem closeInactiveThreads_spec (h : Rep m w) (hreg : w.registered pID = true) :
    ∃ m' b, PerfProcess.closeInactiveThreads m pID = .ok (m', b) ∧
      Evolve m w m' (w.closeInactive pID) ∧
      (b = true ↔ ∃ s ct, w.tree pID s = some ct ∧ ct.inactive = true) := by
  obtain ⟨proc, hproc⟩ := h.process_of_registered hreg
  let f (ct : CallTree) : Option CallTree := if ct.inactive then none else some ct
  rw [PerfProcess.closeInactiveThreads, Mem.process_eq_ok.mpr hproc, ok_bind]
  suffices hloop : ∃ s',
      proc.mapThreads.toList.foldlM (PerfProcess.closeIfInactive pID) (m, false) = .ok s' ∧
      (Evolve m w s'.1 (w.sweepOver pID f (proc.mapThreads.toList.map Prod.fst)) ∧
        (s'.2 = true ↔ ∃ e ∈ proc.mapThreads.toList,
          ∃ ct, w.tree pID e.1 = some ct ∧ ct.inactive = true)) by
    obtain ⟨⟨m', b⟩, hrun, hE, hb⟩ := hloop
    rw [World.sweepOver_all fun s hs => h.mem_keys hproc hs] at hE
    refine ⟨m', b, hrun, hE, hb.trans ?_⟩
    constructor
    · rintro ⟨e, -, ct, hct⟩
      exact ⟨e.1, ct, hct⟩
    · rintro ⟨s, ct, hct, hin⟩
      obtain ⟨e, he, rfl⟩ := List.mem_map.mp (h.mem_keys hproc (by rw [hct]; simp))
      exact ⟨e, he, ct, hct, hin⟩
  refine foldlM_total
    (I := fun done (s : Mem × Bool) => Evolve m w s.1 (w.sweepOver pID f (done.map Prod.fst)) ∧
    (s.2 = true ↔ ∃ e ∈ done, ∃ ct, w.tree pID e.1 = some ct ∧ ct.inactive = true))
    proc.mapThreads.toList ?_ ⟨by simpa using Evolve.refl h, by simp⟩
  rintro done ⟨s, t⟩ rest ⟨m₁, b⟩ hsplit ⟨hE, hb⟩
  obtain ⟨r, ct, hct, hA₁⟩ := h.next_entry hproc hsplit hE
  have hstep : w.sweepOver pID f (done.map Prod.fst ++ [s]) =
      (w.sweepOver pID f (done.map Prod.fst)).set pID s (f ct) := World.sweepOver_concat hct
  have hflag : ∀ b', (b' = true ↔ b = true ∨ ct.inactive = true) →
      (b' = true ↔ ∃ e ∈ done ++ [(s, t)], ∃ ct, w.tree pID e.1 = some ct ∧ ct.inactive = true) := by
    intro b' hb'
    rw [hb', hb]
    simp [or_and_right, exists_or, hct]
  rw [List.map_append, List.map_singleton, hstep]
  cases hin : ct.inactive with
  | true =>
    obtain ⟨m₂, hm₂, hG⟩ := delete_spec hA₁.tracks
    let erase (p : PerfProcess) : PerfProcess := { p with mapThreads := p.mapThreads.erase s }
    refine ⟨(m₂.modifyProcess pID erase, true), ?_, ?_, hflag true (by simp [hin])⟩
    · show (PerfTree.isInactive m₁ t >>= _) = _
      rw [isInactive_spec hA₁.tracks, ok_bind, if_pos hin, hm₂]
      rfl
    · rw [show f ct = none from if_pos hin]
      refine hE.trans (.eraseTree hE.rep hA₁ hG) fun {p q} _ hq => ?_
      rw [World.set_tree] at hq
      split at hq
      · exact absurd rfl hq
      · exact hq
  | false =>
    have hout : ¬ ct.inactive = true := by rw [hin]; simp
    refine ⟨(m₁, b), ?_, ?_, hflag b (by simp [hin])⟩
    · show (PerfTree.isInactive m₁ t >>= _) = _
      rw [isInactive_spec hA₁.tracks, ok_bind, if_neg hout]
      rfl
    · rw [show f ct = some ct from if_neg hout]
      have hid : (w.sweepOver pID f (done.map Prod.fst)).set pID s (some ct) =
          w.sweepOver pID f (done.map Prod.fst) := by
        refine World.ext rfl (funext fun p => funext fun q => ?_)
        rw [World.set_tree]
        split
        · next hk => rw [hk.1, hk.2, hA₁.spec]
        · rfl
      rw [hid]
      exact hE

/-! ## Reporting a process -/

/-- **`ReportData`** of a process reports each of its trees. Its first line names the process. -/
theorem reportProcessData_spec (h : Rep m w) (hreg : w.registered pID = true) (env : Env) :
    ∃ m' size, PerfProcess.reportData m pID env = .ok m' ∧ Evolve m w m' (w.reportTrees pID) ∧
      m.log ++ [.process size pID.toUInt32] <+: m'.log := by
  obtain ⟨proc, hproc⟩ := h.process_of_registered hreg
  let f (ct : CallTree) : Option CallTree := some ct.report
  have hsize : proc.idProcess = pID := h.idProcess hproc
  rw [PerfProcess.reportData, Mem.process_eq_ok.mpr hproc, ok_bind, hsize]
  by_cases hempty : proc.mapThreads.isEmpty = true
  · -- an empty thread map: there is no tree to report
    refine ⟨_, _, if_pos hempty, ?_, List.prefix_rfl⟩
    have hnone : ∀ s, w.tree pID s ≠ none → s ∈ ([] : List pthread_t) := by
      intro s hs
      have hmem := h.mem_keys hproc hs
      rw [Std.ExtTreeMap.isEmpty_iff.mp hempty] at hmem
      simp at hmem
    have hsame : w.reportTrees pID = w := by
      rw [World.reportTrees, ← World.sweepOver_all hnone, World.sweepOver_nil]
    rw [hsame]
    exact .print h _
  · simp only [hempty, Bool.false_eq_true, if_false]
    let clock := proc.clock.now .elapsed env.elapsed
    let m₀ := ((m.print (.process proc.mapThreads.size pID.toUInt32)).print
      (.cpu (clock.getUserCPU .millisecond) (clock.getSystemCPU .millisecond))).modifyProcess pID
        fun p => { p with clock := clock.now .marker env.marker }
    have hE₀ : Evolve m w m₀ w :=
      ((Evolve.print h _).trans (.print (Evolve.print h _).rep _) fun h _ => h).trans
        (.modifyProcess ((Evolve.print (Evolve.print h _).rep _).rep) (fun _ => rfl) fun _ => rfl)
        fun h _ => h
    have hlog₀ : m.log ++ [.process proc.mapThreads.size pID.toUInt32] <+: m₀.log :=
      List.prefix_append _ _
    suffices hloop : ∃ m', proc.mapThreads.toList.foldlM (fun m entry =>
          PerfTree.reportData m entry.2 (clock.getWallClock .millisecond).toUInt32) m₀ = .ok m' ∧
        (Evolve m w m' (w.sweepOver pID f (proc.mapThreads.toList.map Prod.fst)) ∧
          m₀.log <+: m'.log) by
      obtain ⟨m', hrun, hE, hlog⟩ := hloop
      rw [World.sweepOver_all fun s hs => h.mem_keys hproc hs] at hE
      exact ⟨m', _, hrun, hE, hlog₀.trans hlog⟩
    refine foldlM_total
      (I := fun done (m' : Mem) => Evolve m w m' (w.sweepOver pID f (done.map Prod.fst)) ∧
        m₀.log <+: m'.log)
      proc.mapThreads.toList ?_ ⟨by simpa using hE₀, List.prefix_rfl⟩
    rintro done ⟨s, t⟩ rest m₁ hsplit ⟨hE, hlog⟩
    obtain ⟨r, ct, hct, hA₁⟩ := h.next_entry hproc hsplit hE
    obtain ⟨m₂, hm₂, hS, hlog₂⟩ :=
      reportData_spec hA₁.tracks (clock.getWallClock .millisecond).toUInt32
    refine ⟨m₂, hm₂, ?_, (hlog.trans (List.prefix_append _ _)).trans hlog₂⟩
    rw [List.map_append, List.map_singleton, World.sweepOver_concat hct]
    refine hE.trans (hE.rep.step hA₁ hS rfl) fun {p q} hq _ => ?_
    rw [World.sweepOver_tree]
    split
    · obtain ⟨ct', hct'⟩ := Option.ne_none_iff_exists'.mp hq
      rw [hct']
      simp [f]
    · exact hq

/-! ## Removing a process -/

/-- The destructor of a process deletes its trees; its entries are still there then. -/
theorem deleteTrees_spec (h : Rep m w) {proc : PerfProcess} (hproc : m.processMap[pID]? = some proc) :
    ∃ m', PerfProcess.deleteTrees m pID = .ok m' ∧ m'.processMap = m.processMap ∧
      m'.nodes.next = m.nodes.next ∧
      (∀ {s t r ct q}, At m w pID s t r ct → Reaches (childOf m) r q → m'.nodes.get q = none) ∧
      (∀ {q}, (∀ {s t r ct}, At m w pID s t r ct → ¬ Reaches (childOf m) r q) →
        m'.nodes.get q = m.nodes.get q) ∧
      (∀ {p s t r ct}, p ≠ pID → At m w p s t r ct → m'.trees.get t = m.trees.get t) := by
  rw [PerfProcess.deleteTrees, Mem.process_eq_ok.mpr hproc, ok_bind]
  -- after `done`, the trees of `done` are dead and the others as they were
  let I (done : List (pthread_t × TreePtr)) (m' : Mem) : Prop :=
    m'.processMap = m.processMap ∧ m'.nodes.next = m.nodes.next ∧
    (∀ {e r ct q}, e ∈ done → At m w pID e.1 e.2 r ct → Reaches (childOf m) r q →
      m'.nodes.get q = none) ∧
    (∀ {q}, (∀ {e r ct}, e ∈ done → At m w pID e.1 e.2 r ct → ¬ Reaches (childOf m) r q) →
      m'.nodes.get q = m.nodes.get q) ∧
    (∀ {t}, (∀ e ∈ done, e.2 ≠ t) → m'.trees.get t = m.trees.get t)
  suffices hloop : ∃ m', proc.mapThreads.toList.foldlM
      (fun m entry => PerfTree.delete m entry.2) m = .ok m' ∧ I proc.mapThreads.toList m' by
    obtain ⟨m', hrun, hmap, hnext, hdead, hnodes, htrees⟩ := hloop
    have hmem : ∀ {s t r ct}, At m w pID s t r ct → (s, t) ∈ proc.mapThreads.toList := by
      intro s t r ct hA
      rw [mem_entries, ← Mem.treePtr_of_process hproc]
      exact hA.ptr
    refine ⟨m', hrun, hmap, hnext, fun hA hq => hdead (hmem hA) hA hq, fun hq => ?_, ?_⟩
    · exact hnodes fun _ hA => hq hA
    · intro p s t r ct hp hA
      refine htrees fun ⟨s', t'⟩ he ht => hp ?_
      obtain ⟨r', ct', hA'⟩ := h.entry hproc he
      obtain rfl : t' = t := ht
      exact (h.ptr_inj hA hA').1
  refine foldlM_total (I := I) proc.mapThreads.toList ?_
    ⟨rfl, rfl, fun he => absurd he (by simp), fun _ => rfl, fun _ => rfl⟩
  rintro done ⟨s, t⟩ rest m₁ hsplit ⟨hmap, hnext, hdead, hnodes, htrees⟩
  have hmem : (s, t) ∈ proc.mapThreads.toList := by rw [hsplit]; simp
  obtain ⟨r, ct, hA⟩ := h.entry hproc hmem
  obtain ⟨-, hnew⟩ := entries_split hsplit
  have hdis : ∀ {e r' ct' q}, e ∈ done → At m w pID e.1 e.2 r' ct' → Reaches (childOf m) r q →
      ¬ Reaches (childOf m) r' q := by
    rintro ⟨s', t'⟩ r' ct' q he hA' hq hq'
    obtain ⟨-, rfl⟩ := h.apart hA hA' hq hq'
    exact hnew t' he
  have hsame : ∀ q, Reaches (childOf m) r q → m₁.nodes.get q = m.nodes.get q :=
    fun q hq => hnodes fun he hA' => hdis he hA' hq
  have hT₁ : Tracks m₁ t r ct := by
    refine hA.tracks.frame (htrees fun ⟨s', t'⟩ he ht => ?_) hsame
    have hmem' : (s', t') ∈ proc.mapThreads.toList := by
      rw [hsplit]
      exact List.mem_append_left _ he
    obtain ⟨r', ct', hA'⟩ := h.entry hproc hmem'
    obtain rfl : t' = t := ht
    obtain ⟨-, rfl⟩ := h.ptr_inj hA hA'
    exact hnew _ he
  have hreach : ∀ q, Reaches (childOf m₁) r q ↔ Reaches (childOf m) r q :=
    reaches_congr fun v hv k => childOf_congr (hsame v hv) k
  obtain ⟨m₂, hm₂, hG⟩ := delete_spec hT₁
  refine ⟨m₂, hm₂, hG.processMap.trans hmap, hG.next.trans hnext, ?_, ?_, ?_⟩
  · intro e r' ct' q he hA' hq
    by_cases hr : Reaches (childOf m) r q
    · exact hG.inside ((hreach q).mpr hr)
    · rw [hG.outside fun h => hr ((hreach q).mp h)]
      rcases List.mem_append.mp he with he | he
      · exact hdead he hA' hq
      · obtain rfl := List.mem_singleton.mp he
        obtain rfl := Rep.root_eq hA hA'
        exact absurd hq hr
  · intro q hq
    rw [hG.outside fun hr => hq (e := (s, t)) (by simp) hA ((hreach q).mp hr)]
    exact hnodes fun he hA' => hq (List.mem_append_left _ he) hA'
  · intro t' ht'
    rw [hG.trees fun h => ht' (s, t) (by simp) h.symm]
    exact htrees fun e he => ht' e (List.mem_append_left _ he)

/-- **`RDKPerf_RemoveProcess`** removes the process with all its trees, if it is there. -/
theorem removeProcess_spec (h : Rep m w) (pID : pid_t) :
    ∃ m', RDKPerf_RemoveProcess m pID = .ok m' ∧ Evolve m w m' (w.removeProcess pID) := by
  rw [RDKPerf_RemoveProcess, findProcess_eq h]
  cases hreg : w.registered pID with
  | false =>
    -- nothing is registered there, so nothing is removed
    have hsame : w.removeProcess pID = w := by
      refine World.ext (funext fun p => ?_) (funext fun p => funext fun s => ?_)
      · rw [World.removeProcess_registered]
        by_cases hp : p = pID
        · simp [hp, hreg]
        · simp [hp]
      · rw [World.removeProcess_tree]
        split
        · next hp =>
          refine (Classical.byContradiction fun hne => ?_)
          obtain ⟨ct, hct⟩ := Option.ne_none_iff_exists'.mp (Ne.symm hne)
          rw [h.registered_of_tree (hp ▸ hct)] at hreg
          exact absurd hreg (by simp)
        · rfl
    rw [hsame]
    exact ⟨m, rfl, .refl h⟩
  | true =>
    obtain ⟨proc, hproc⟩ := h.process_of_registered hreg
    obtain ⟨m₁, hm₁, hmap, hnext, hdead, hnodes, htrees⟩ := deleteTrees_spec h hproc
    refine ⟨{ m₁ with processMap := m₁.processMap.erase pID }, ?_, ?_⟩
    · show (PerfProcess.deleteTrees m pID >>= _) = _
      rw [hm₁]
      rfl
    have hget : ∀ p : pid_t, (m₁.processMap.erase pID)[p]? =
        if p = pID then none else m.processMap[p]? := by
      intro p
      rw [Std.ExtTreeMap.getElem?_erase, hmap]
      by_cases hp : p = pID
      · simp [hp]
      · rw [if_neg (by simpa using fun h : pID = p => hp h.symm), if_neg hp]
    refine h.drop (fun p _ => p = pID) (fun p => ?_) ?_ ?_ ?_ ?_ ?_ ?_ hnext htrees
    · rw [Std.ExtTreeMap.contains_eq_isSome_getElem?, hget, World.removeProcess_registered,
        ← h.registered, Std.ExtTreeMap.contains_eq_isSome_getElem?]
      by_cases hp : p = pID
      · simp [hp]
      · simp [hp]
    · intro p proc' hp
      rw [hget] at hp
      split at hp
      · exact absurd hp (by simp)
      · exact h.idProcess hp
    · rintro p s rfl
      refine ⟨?_, by rw [World.removeProcess_tree, if_pos rfl]⟩
      rw [Mem.treePtr, hget, if_pos rfl]
      rfl
    · intro p s hp
      refine ⟨?_, by rw [World.removeProcess_tree, if_neg hp]⟩
      rw [Mem.treePtr, hget, if_neg hp]
      rfl
    · rintro p s t r ct q rfl hA hq
      exact hdead hA hq
    · intro q hq
      exact hnodes fun hA => hq rfl hA
    · intro q hq
      by_cases hr : ∃ s t r ct, At m w pID s t r ct ∧ Reaches (childOf m) r q
      · obtain ⟨s, t, r, ct, hA, hr⟩ := hr
        exact hdead hA hr
      · exact (hnodes fun hA h => hr ⟨_, _, _, _, hA, h⟩).trans hq

end RdkPerf

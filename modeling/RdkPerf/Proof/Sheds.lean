import RdkPerf.Proof.Control
import RdkPerf.Proof.Printing

/-!
# What makes objects, and what deletes them

Objects are made in one place only: entering a call makes a tree for its thread, a root for the tree
and a node for the name, each where it is missing (`Placed`). Everything else makes none, and takes
an entry away only with the tree it leads to (`Sheds`).
-/

namespace RdkPerf

open Lib

variable {m m' : Mem} {w : World} {pID : pid_t} {tID : pthread_t} {t : TreePtr} {p : NodePtr}
  {env : Env} {b : Bool}

/-! ## What makes nothing -/

/-- Nothing was made, the entries there are were there before, and a tree that is still live has
    those it had. -/
structure Sheds (m m' : Mem) : Prop where
  next : m'.nodes.next = m.nodes.next
  entries : ∀ {p s t}, m'.treePtr p s = some t → m.treePtr p s = some t
  live : ∀ {t}, m'.trees.get t ≠ none → m.trees.get t ≠ none
  kept : ∀ {p s t}, m'.trees.get t ≠ none → m.treePtr p s = some t → m'.treePtr p s = some t

namespace Sheds

theorem refl (m : Mem) : Sheds m m := ⟨rfl, fun h => h, fun h => h, fun _ h => h⟩

theorem trans {m₁ : Mem} (h : Sheds m m₁) (h₁ : Sheds m₁ m') : Sheds m m' where
  next := h₁.next.trans h.next
  entries ht := h.entries (h₁.entries ht)
  live ht := h.live (h₁.live ht)
  kept hlive ht := h₁.kept hlive (h.kept (h₁.live hlive) ht)

/-- The thread maps are as they were. -/
theorem of_treePtr (hnext : m'.nodes.next = m.nodes.next)
    (hlive : ∀ t, m'.trees.get t ≠ none → m.trees.get t ≠ none)
    (hptr : ∀ p s, m'.treePtr p s = m.treePtr p s) : Sheds m m' where
  next := hnext
  entries ht := by rwa [hptr] at ht
  live := hlive _
  kept _ ht := by rwa [hptr]

theorem of_nodes (hnext : m'.nodes.next = m.nodes.next) (htrees : m'.trees = m.trees)
    (hmap : m'.processMap = m.processMap) : Sheds m m' :=
  of_treePtr hnext (fun t ht => by rwa [htrees] at ht) fun _ _ => Mem.treePtr_congr hmap

theorem modifyTree (m : Mem) (t : TreePtr) (f : PerfTree → PerfTree) :
    Sheds m (m.modifyTree t f) := by
  refine of_treePtr rfl (fun t' ht' hnone => ht' ?_) fun _ _ => Mem.treePtr_congr rfl
  rw [Mem.modifyTree_trees, Store.get_modify, hnone]
  simp

/-- A process keeps its thread map. -/
theorem modifyProcess (m : Mem) (pID : pid_t) {f : PerfProcess → PerfProcess}
    (hf : ∀ proc, (f proc).mapThreads = proc.mapThreads) : Sheds m (m.modifyProcess pID f) := by
  refine of_treePtr rfl (fun _ ht => ht) fun p s => ?_
  rw [Mem.treePtr_modifyProcess]
  split
  · next hp => simp only [hf, hp, Mem.treePtr]
  · rfl

/-- The entry of a thread whose tree is dead. -/
theorem erase (hdead : ∀ t, m.treePtr pID tID = some t → m.trees.get t = none) :
    Sheds m (m.modifyProcess pID fun p => { p with mapThreads := p.mapThreads.erase tID }) where
  next := rfl
  entries ht := by
    rw [treePtr_erase] at ht
    split at ht
    · cases ht
    · exact ht
  live ht := ht
  kept := by
    intro p s t hlive ht
    rw [treePtr_erase, if_neg]
    · exact ht
    · rintro ⟨rfl, rfl⟩
      exact hlive (hdead t ht)

/-- The entries of a process whose trees are dead. -/
theorem eraseProcess (hdead : ∀ s t, m.treePtr pID s = some t → m.trees.get t = none) :
    Sheds m { m with processMap := m.processMap.erase pID } := by
  have hptr : ∀ p s, ({ m with processMap := m.processMap.erase pID } : Mem).treePtr p s =
      if p = pID then none else m.treePtr p s := by
    intro p s
    unfold Mem.treePtr
    rw [Std.ExtTreeMap.getElem?_erase]
    by_cases hp : p = pID
    · simp [hp]
    · rw [if_neg (by simpa using fun h : pID = p => hp h.symm), if_neg hp]
  constructor
  · rfl
  · intro p s t ht
    rw [hptr] at ht
    split at ht
    · cases ht
    · exact ht
  · exact fun ht => ht
  · intro p s t hlive ht
    rw [hptr, if_neg]
    · exact ht
    · rintro rfl
      exact hlive (hdead s t ht)

end Sheds

theorem PerfNode.incrementData_sheds {d user system : UInt64}
    (h : PerfNode.incrementData m p d user system = .ok m') : Sheds m m' := by
  obtain ⟨n, -, h⟩ := bind_eq_ok.mp h
  obtain rfl := Except.ok.inj h
  exact .of_nodes rfl rfl rfl

theorem PerfNode.closeNode_sheds (h : PerfNode.closeNode m p = .ok m') : Sheds m m' := by
  obtain ⟨n, -, h⟩ := bind_eq_ok.mp h
  cases ht : n.tree with
  | none =>
    rw [ht] at h
    obtain rfl := Except.ok.inj h
    exact .refl m
  | some pTree =>
    rw [ht] at h
    obtain ⟨tree, -, h⟩ := bind_eq_ok.mp h
    cases hs : tree.activeNode with
    | nil =>
      rw [hs] at h
      exact absurd h (by simp)
    | cons pTop rest =>
      simp only [hs] at h
      split at h
      · obtain ⟨_, -, h⟩ := bind_eq_ok.mp h
        obtain ⟨_, -, h⟩ := bind_eq_ok.mp h
        obtain rfl := Except.ok.inj h
        exact .refl m
      · obtain rfl := Except.ok.inj h
        exact .modifyTree m pTree _

theorem PerfNode.reportDataNested_sheds {fuel : Nat} {nLevel : UInt32}
    (h : PerfNode.reportDataNested b fuel m p nLevel = .ok m') : Sheds m m' := by
  refine reportDataNested_inv (I := fun m₁ => Sheds m m₁) ?_ ?_ h (.refl m)
  · intro m₁ nLevel stats hI
    exact hI.trans (.of_nodes rfl rfl rfl)
  · intro m₁ q hI
    exact hI.trans (.of_nodes rfl rfl rfl)

theorem PerfTree.reportData_sheds {ms : UInt32} (h : PerfTree.reportData m t ms = .ok m') :
    Sheds m m' := by
  obtain ⟨tree, -, h⟩ := bind_eq_ok.mp h
  cases hroot : tree.rootNode with
  | none =>
    rw [hroot] at h
    exact absurd h (by simp)
  | some pRoot =>
    rw [hroot] at h
    obtain ⟨m₁, hm₁, h⟩ := bind_eq_ok.mp h
    obtain rfl := Except.ok.inj h
    have hprinted : Sheds m (m.print (.tree t tree.idThread.toUInt32 tree.shownName ms)) :=
      .of_nodes rfl rfl rfl
    exact (hprinted.trans (PerfNode.reportDataNested_sheds hm₁)).trans (.modifyTree m₁ t _)

theorem PerfProcess.reportData_sheds (h : PerfProcess.reportData m pID env = .ok m') :
    Sheds m m' := by
  obtain ⟨proc, -, h⟩ := bind_eq_ok.mp h
  split at h
  · obtain rfl := Except.ok.inj h
    exact .of_nodes rfl rfl rfl
  · refine foldlM_inv (I := fun m₁ => Sheds m m₁) ?_ ?_ h
    · intro m₁ e m₂ _ hI hm₂
      exact hI.trans (PerfTree.reportData_sheds hm₂)
    · refine Sheds.trans ?_ (.modifyProcess _ pID ?_)
      · exact .of_nodes rfl rfl rfl
      · exact fun _ => rfl

/-! ### Deleting -/

theorem PerfNode.deleteNested_trees {fuel : Nat} (h : PerfNode.deleteNested fuel m p = .ok m') :
    m'.nodes.next = m.nodes.next ∧ m'.trees = m.trees := by
  induction fuel generalizing m m' p with
  | zero => exact absurd h (by simp [PerfNode.deleteNested])
  | succ fuel ih =>
    obtain ⟨n, -, h⟩ := bind_eq_ok.mp h
    obtain ⟨m₁, hm₁, h⟩ := bind_eq_ok.mp h
    have hbelow : m₁.nodes.next = m.nodes.next ∧ m₁.trees = m.trees := by
      refine foldlM_inv (I := fun m₁ : Mem => m₁.nodes.next = m.nodes.next ∧ m₁.trees = m.trees)
        ?_ ⟨rfl, rfl⟩ hm₁
      intro m₁ e m₂ _ hI hm₂
      obtain ⟨hnext, htrees⟩ := ih hm₂
      exact ⟨hnext.trans hI.1, htrees.trans hI.2⟩
    obtain rfl := Except.ok.inj h
    exact hbelow

/-- The tree is dead, its entry is not looked at. -/
theorem PerfTree.delete_sheds (h : PerfTree.delete m t = .ok m') :
    Sheds m m' ∧ m'.trees.get t = none := by
  have hmap := (PerfTree.delete_treesOnly h).processMap
  obtain ⟨m₁, htrees, hnext, hfree⟩ : ∃ m₁ : Mem, m₁.trees = m.trees ∧
      m₁.nodes.next = m.nodes.next ∧ m' = { m₁ with trees := m₁.trees.free t } := by
    obtain ⟨tree, -, h⟩ := bind_eq_ok.mp h
    cases hroot : tree.rootNode with
    | none =>
      rw [hroot] at h
      exact ⟨m, rfl, rfl, (Except.ok.inj h).symm⟩
    | some pRoot =>
      rw [hroot] at h
      obtain ⟨m₁, hm₁, h⟩ := bind_eq_ok.mp h
      obtain ⟨hnext, htrees⟩ := PerfNode.deleteNested_trees hm₁
      exact ⟨m₁, htrees, hnext, (Except.ok.inj h).symm⟩
  rw [hfree] at hmap ⊢
  refine ⟨.of_treePtr hnext (fun t' ht' hnone => ht' ?_) fun _ _ => Mem.treePtr_congr hmap, ?_⟩
  · rw [Store.get_free, htrees, hnone]
    simp
  · rw [Store.get_free, if_pos rfl]

/-- A tree is deleted, and the entry that led to it erased. -/
theorem PerfTree.delete_erase_sheds (hptr : ∀ t', m.treePtr pID tID = some t' → t' = t)
    (h : PerfTree.delete m t = .ok m') :
    Sheds m (m'.modifyProcess pID fun p => { p with mapThreads := p.mapThreads.erase tID }) := by
  obtain ⟨hsheds, hdead⟩ := PerfTree.delete_sheds h
  refine hsheds.trans (.erase fun t' ht' => ?_)
  rw [hptr t' (hsheds.entries ht')]
  exact hdead

theorem PerfProcess.removeTree_sheds (h : PerfProcess.removeTree m pID tID = .ok (m', b)) :
    Sheds m m' := by
  obtain ⟨proc, hproc, h⟩ := bind_eq_ok.mp h
  have hptr : m.treePtr pID tID = proc.mapThreads[tID]? :=
    Mem.treePtr_of_process (Mem.process_eq_ok.mp hproc)
  cases ht : proc.mapThreads[tID]? with
  | none =>
    simp only [ht] at h
    obtain ⟨rfl, -⟩ := Prod.mk.inj (Except.ok.inj h)
    exact .refl m
  | some pTree =>
    simp only [ht] at h
    obtain ⟨m₁, hm₁, h⟩ := bind_eq_ok.mp h
    obtain ⟨rfl, -⟩ := Prod.mk.inj (Except.ok.inj h)
    refine PerfTree.delete_erase_sheds (fun t' ht' => ?_) hm₁
    exact Option.some.inj (ht'.symm.trans (hptr.trans ht))

theorem PerfProcess.closeInactiveThreads_sheds
    (h : PerfProcess.closeInactiveThreads m pID = .ok (m', b)) : Sheds m m' := by
  obtain ⟨proc, hproc, h⟩ := bind_eq_ok.mp h
  refine foldlM_inv (I := fun s : Mem × Bool => Sheds m s.1) ?_ (.refl m) h
  intro s e s' he hI hs
  obtain ⟨inactive, -, hs⟩ := bind_eq_ok.mp hs
  cases inactive with
  | false => exact (Except.ok.inj hs) ▸ hI
  | true =>
    obtain ⟨m₁, hm₁, hs⟩ := bind_eq_ok.mp hs
    obtain rfl := Except.ok.inj hs
    refine hI.trans (PerfTree.delete_erase_sheds (fun t' ht' => ?_) hm₁)
    -- the entry is the one the loop stands on
    have hptr := hI.entries ht'
    rw [Mem.treePtr_of_process (Mem.process_eq_ok.mp hproc), mem_entries.mp he] at hptr
    exact (Option.some.inj hptr).symm

theorem PerfProcess.deleteTrees_sheds (h : PerfProcess.deleteTrees m pID = .ok m') :
    Sheds m m' ∧ ∀ s t, m'.treePtr pID s = some t → m'.trees.get t = none := by
  obtain ⟨proc, hproc, h⟩ := bind_eq_ok.mp h
  suffices hloop : ∀ (es : List (pthread_t × TreePtr)) (m : Mem),
      es.foldlM (fun m entry => PerfTree.delete m entry.2) m = .ok m' →
        Sheds m m' ∧ ∀ e ∈ es, m'.trees.get e.2 = none by
    obtain ⟨hsheds, hdead⟩ := hloop _ m h
    refine ⟨hsheds, fun s t ht => ?_⟩
    have hptr := hsheds.entries ht
    rw [Mem.treePtr_of_process (Mem.process_eq_ok.mp hproc)] at hptr
    exact hdead (s, t) (mem_entries.mpr hptr)
  intro es
  induction es with
  | nil =>
    intro m h
    obtain rfl := Except.ok.inj h
    exact ⟨.refl m, fun e he => absurd he (by simp)⟩
  | cons e es ih =>
    intro m h
    obtain ⟨m₁, hm₁, h⟩ := foldlM_cons_ok.mp h
    obtain ⟨hsheds, hdead⟩ := PerfTree.delete_sheds hm₁
    obtain ⟨hrest, hdead'⟩ := ih m₁ h
    refine ⟨hsheds.trans hrest, fun e' he' => ?_⟩
    rcases List.mem_cons.mp he' with rfl | he'
    · by_contra hlive
      exact hrest.live hlive hdead
    · exact hdead' e' he'

theorem removeProcess_sheds (h : RDKPerf_RemoveProcess m pID = .ok m') : Sheds m m' := by
  unfold RDKPerf_RemoveProcess at h
  cases hfind : RDKPerf_FindProcess m pID with
  | none =>
    rw [hfind] at h
    obtain rfl := Except.ok.inj h
    exact .refl m
  | some pProcess =>
    obtain rfl : pProcess = pID := by
      unfold RDKPerf_FindProcess at hfind
      split at hfind
      · exact (Option.some.inj hfind).symm
      · cases hfind
    rw [hfind] at h
    obtain ⟨m₁, hm₁, h⟩ := bind_eq_ok.mp h
    obtain rfl := Except.ok.inj h
    obtain ⟨hsheds, hdead⟩ := PerfProcess.deleteTrees_sheds hm₁
    exact hsheds.trans (.eraseProcess hdead)

theorem PerfRecord.destruct_sheds {this : PerfRecord} (h : this.destruct m env = .ok m') :
    Sheds m m' := by
  unfold PerfRecord.destruct at h
  cases hnode : this.nodeInTree with
  | none => simp [hnode] at h
  | some p =>
    simp only [hnode] at h
    obtain ⟨m₁, hinc, h⟩ := bind_eq_ok.mp h
    obtain ⟨m₂, hclose, h⟩ := bind_eq_ok.mp h
    have hstop := (PerfNode.incrementData_sheds hinc).trans (PerfNode.closeNode_sheds hclose)
    split at h
    · obtain ⟨node, -, h⟩ := bind_eq_ok.mp h
      have hprinted : Sheds m₂ (m₂.print (.threshold this.elementName this.thresholdInUS
          (env.timeStamp - this.startTime) node.stats)) := .of_nodes rfl rfl rfl
      exact (hstop.trans hprinted).trans (PerfNode.reportDataNested_sheds h)
    · obtain rfl := Except.ok.inj h
      exact hstop

/-! ## What makes objects -/

section Entering

variable {m₁ m₂ m₃ : Mem} {r pTop pNode : NodePtr} {ct : CallTree}
  {name : PerfTree → Except Fault PerfTree} {szName : Name}

/-- Finding the tree of a thread makes no node, and no tree but the one found. -/
theorem getTree_made (h : Rep m w)
    (hrun : Service.getTree m pID tID true env = .ok (m₁, some t)) :
    m₁.nodes = m.nodes ∧ m₁.treePtr pID tID = some t ∧
      (∀ {t'}, m₁.trees.get t' ≠ none → m.trees.get t' ≠ none ∨ t' = t) ∧
      ∀ {p s t'}, m.treePtr p s = some t' → m₁.treePtr p s = some t' := by
  -- the process is there, or is inserted
  obtain ⟨m₀, hrep₀, hnodes₀, htrees₀, hptr₀, hcall⟩ : ∃ m₀, Rep m₀ (w.register pID) ∧
      m₀.nodes = m.nodes ∧ m₀.trees = m.trees ∧
      (∀ {p s t'}, m.treePtr p s = some t' → m₀.treePtr p s = some t') ∧
      Service.getTreeIn m₀ pID tID true env = .ok (m₁, some t) := by
    cases hreg : w.registered pID with
    | true =>
      refine ⟨m, ?_, rfl, rfl, fun ht => ht, ?_⟩
      · rw [World.register_of_registered hreg]
        exact h
      · rwa [Service.getTree_found (Service.find_registered h hreg)] at hrun
    | false =>
      have hE := insertProcess_spec h pID
      refine ⟨_, hE.rep, rfl, rfl, fun {p s t'} ht => ?_, ?_⟩
      · obtain ⟨r, ct, hA⟩ := h.present ht
        exact (hE.stays hA hA.spec).1.ptr
      · rwa [Service.getTree_inserted (Service.find_unregistered h hreg)] at hrun
  have hreg₀ : (w.register pID).registered pID = true := by simp
  rw [Service.getTreeIn, getTree_spec hrep₀ hreg₀, ok_bind] at hcall
  cases ht : m₀.treePtr pID tID with
  | some t₀ =>
    rw [ht] at hcall
    obtain ⟨rfl, ht₀⟩ := Prod.mk.inj (Except.ok.inj hcall)
    refine ⟨hnodes₀, ht.trans ht₀, fun hlive => Or.inl ?_, hptr₀⟩
    rwa [htrees₀] at hlive
  | none =>
    rw [ht] at hcall
    obtain ⟨proc, hproc⟩ := hrep₀.process_of_registered hreg₀
    have hnew := hcall.symm.trans (newTree_eq hproc ht env)
    obtain ⟨rfl, ht₀⟩ := Prod.mk.inj (Except.ok.inj hnew)
    obtain rfl := Option.some.inj ht₀
    refine ⟨hnodes₀, ?_, fun {t'} hlive => ?_, fun {p s t'} ht' => ?_⟩
    · rw [treePtr_registerTree hproc, if_pos ⟨rfl, rfl⟩]
    · by_cases ht' : t' = m₀.trees.next
      · exact Or.inr ht'
      · refine Or.inl ?_
        rw [← htrees₀]
        intro hnone
        apply hlive
        show (m₀.trees.alloc {}).get t' = none
        rw [Store.get_alloc, if_neg ht', hnone]
    · rw [treePtr_registerTree hproc, if_neg]
      · exact hptr₀ ht'
      · rintro ⟨rfl, rfl⟩
        exact absurd ((hptr₀ ht').symm.trans ht) (by simp)

/-- A new tree is named, and keeps its stack. -/
def KeepsStack (name : PerfTree → Except Fault PerfTree) : Prop :=
  ∀ {tree tree'}, name tree = .ok tree' → tree'.activeNode = tree.activeNode

theorem keepsStack_caller (caller : Caller) : KeepsStack (PerfTree.nameFromCaller caller) := by
  intro tree tree' h
  obtain rfl := Except.ok.inj h
  rfl

theorem keepsStack_entry (tID : pthread_t) (szThreadName : Option Name) :
    KeepsStack (PerfTree.nameFromEntry tID szThreadName) := by
  intro tree tree' h
  cases szThreadName with
  | none => exact absurd h (by simp [PerfTree.nameFromEntry])
  | some n =>
    simp only [PerfTree.nameFromEntry, PerfTree.copyThreadName] at h
    split at h
    · obtain rfl := Except.ok.inj h
      rfl
    · exact absurd h (by simp)

/-- The first node of a tree is its root. -/
theorem topOrRoot_made (hname : KeepsStack name)
    (h : PerfTree.topOrRoot m₁ t name = .ok (m₂, pTop)) :
    (m₂.nodes.next = m₁.nodes.next ∨
      m₂.nodes.next = m₁.nodes.next + 1 ∧ pTop = m₁.nodes.next) ∧
      (∃ tree, m₂.trees.get t = some tree ∧ pTop ∈ tree.activeNode) ∧
      ∀ {t'}, m₂.trees.get t' ≠ none → m₁.trees.get t' ≠ none := by
  obtain ⟨tree, htree, h⟩ := bind_eq_ok.mp h
  have hget := Mem.tree_eq_ok.mp htree
  cases hs : tree.activeNode with
  | cons pTop' rest =>
    simp only [hs] at h
    obtain ⟨rfl, rfl⟩ := Prod.mk.inj (Except.ok.inj h)
    exact ⟨Or.inl rfl, ⟨tree, hget, by rw [hs]; simp⟩, fun ht => ht⟩
  | nil =>
    simp only [hs] at h
    obtain ⟨tree', hnamed, h⟩ := bind_eq_ok.mp h
    obtain ⟨rfl, rfl⟩ := Prod.mk.inj (Except.ok.inj h)
    refine ⟨Or.inr ⟨rfl, rfl⟩, ⟨tree', ?_, ?_⟩, (Sheds.modifyTree _ t _).live⟩
    · rw [Mem.modifyTree_trees, Store.get_modify, if_pos rfl, hget]
      rfl
    · rw [hname hnamed]
      exact List.mem_singleton.mpr rfl

/-- The node that is pushed is there, or is made. -/
theorem pushed_made (h : pushed m₂ t pTop szName = .ok (m₃, pNode)) :
    (m₃.nodes.next = m₂.nodes.next ∨
      m₃.nodes.next = m₂.nodes.next + 1 ∧ pNode = m₂.nodes.next) ∧
      (∀ {tree}, m₂.trees.get t = some tree → ∃ tree', m₃.trees.get t = some tree' ∧
        tree'.activeNode = pNode :: tree.activeNode) ∧
      m₃.processMap = m₂.processMap ∧ ∀ {t'}, m₃.trees.get t' ≠ none → m₂.trees.get t' ≠ none := by
  obtain ⟨⟨m₀, pNode'⟩, hadd, h⟩ := bind_eq_ok.mp h
  obtain ⟨rfl, rfl⟩ := Prod.mk.inj (Except.ok.inj h)
  have hchild : (m₀.nodes.next = m₂.nodes.next ∨
      m₀.nodes.next = m₂.nodes.next + 1 ∧ pNode' = m₂.nodes.next) ∧ m₀.trees = m₂.trees ∧
        m₀.processMap = m₂.processMap := by
    obtain ⟨n, -, hadd⟩ := bind_eq_ok.mp hadd
    split at hadd
    · obtain ⟨rfl, rfl⟩ := Prod.mk.inj (Except.ok.inj hadd)
      exact ⟨Or.inl rfl, rfl, rfl⟩
    · obtain ⟨child, -, hadd⟩ := bind_eq_ok.mp hadd
      obtain ⟨rfl, rfl⟩ := Prod.mk.inj (Except.ok.inj hadd)
      exact ⟨Or.inr ⟨rfl, rfl⟩, rfl, rfl⟩
  obtain ⟨hnext, htrees, hmap⟩ := hchild
  refine ⟨hnext, fun {tree} htree => ?_, hmap, fun {t'} ht' => ?_⟩
  · refine ⟨{ tree with
      activeNode := pNode' :: tree.activeNode, activityCount := tree.activityCount + 1 }, ?_, rfl⟩
    show (m₀.trees.modify t _).get t = _
    rw [Store.get_modify, if_pos rfl, htrees, htree]
    rfl
  · rw [← htrees]
    exact (Sheds.modifyTree m₀ t _).live ht'

/-- What was made is the tree at `t`, which is registered, and nodes on its stack. -/
structure Placed (m m' : Mem) (pID : pid_t) (tID : pthread_t) (t : TreePtr) : Prop where
  nodes : ∀ {q}, m.nodes.next ≤ q → q < m'.nodes.next →
    ∃ tree, m'.trees.get t = some tree ∧ q ∈ tree.activeNode
  ptr : m'.treePtr pID tID = some t
  live : ∀ {t'}, m'.trees.get t' ≠ none → m.trees.get t' ≠ none ∨ t' = t
  kept : ∀ {p s t'}, m.treePtr p s = some t' → m'.treePtr p s = some t'

/-- **Entering a call** makes a root at most, and a node. -/
theorem entered_placed (h : Rep m w) (hname : KeepsStack name)
    (hget : Service.getTree m pID tID true env = .ok (m₁, some t))
    (htop : PerfTree.topOrRoot m₁ t name = .ok (m₂, pTop))
    (hpush : pushed m₂ t pTop szName = .ok (m₃, pNode)) : Placed m m₃ pID tID t := by
  obtain ⟨hnodes, hptr, hlive₁, hkept₁⟩ := getTree_made h hget
  obtain ⟨hnext₂, ⟨tree, htree, htopmem⟩, hlive₂⟩ := topOrRoot_made hname htop
  obtain ⟨hnext₃, hstack, hmap₃, hlive₃⟩ := pushed_made hpush
  obtain ⟨tree', htree', hstack'⟩ := hstack htree
  have hptr₃ : ∀ p s, m₃.treePtr p s = m₁.treePtr p s := by
    intro p s
    rw [Mem.treePtr_congr hmap₃, Mem.treePtr_congr (PerfTree.topOrRoot_treesOnly htop).processMap]
  constructor
  · intro q hge hlt
    refine ⟨tree', htree', ?_⟩
    rw [hstack', List.mem_cons]
    have hq : q = pNode ∨ q = pTop := by
      rw [hnodes] at hnext₂
      rcases hnext₂ with hnext₂ | ⟨hnext₂, rfl⟩ <;> rcases hnext₃ with hnext₃ | ⟨hnext₃, rfl⟩ <;>
        omega
    rcases hq with rfl | rfl
    · exact Or.inl rfl
    · exact Or.inr htopmem
  · rw [hptr₃, hptr]
  · exact fun ht' => hlive₁ (hlive₂ (hlive₃ ht'))
  · intro p s t' ht'
    rw [hptr₃, hkept₁ ht']

end Entering

end RdkPerf

import RdkPerf.Spec.View

/-!
# The memory represents a world

`Tracks m t r ct` — the objects of the tree at `t`, whose root is at `r`, are the call tree `ct`.
`Rep m w` — the registered trees are the trees of `w`, and no two of them share a node.

A method writes the nodes of one tree and allocates. What that means for everything else is said
once, in `TreeStep` (one tree changes) and in `Rep.put` and `Rep.drop` (what such a change does to
the whole): no proof about a method looks at another tree. `Evolve` is the form in which the
result reaches whoever holds a pointer from before — a record holds one — and says which of the
old nodes are where they were and which are gone.
-/

namespace RdkPerf

open Lib

/-! ## One tree -/

/-- The tree object that `ct` is, with its root at `r`. -/
def CallTree.object (ct : CallTree) (r : NodePtr) (stack : List NodePtr) : PerfTree where
  idThread := ct.idThread
  rootNode := some r
  threadName := ct.threadName
  activityCount := ct.activityCount
  countAtLastReport := ct.countAtLastReport
  activeNode := stack

/-- `m_Tree` of the node at a path: null in the root. -/
def owner (t : TreePtr) : Path → Option TreePtr
  | [] => none
  | _ :: _ => some t

structure Tracks (m : Mem) (t : TreePtr) (r : NodePtr) (ct : CallTree) : Prop where
  tree : ∃ stack, m.trees.get t = some (ct.object r stack) ∧
    Spells (childOf m) r ct.active stack
  tidy : Tidy (childOf m) r
  live : ∀ {π p}, walk (childOf m) r π = some p → ∃ n, m.nodes.get p = some n ∧
    n.elementName = Path.label π ∧ n.tree = owner t π ∧ ct.node π = some n.data
  absent : ∀ {π}, walk (childOf m) r π = none → ct.node π = none
  named : ∀ {π p}, walk (childOf m) r π = some p → [] ∉ π

namespace Tracks

variable {m m' : Mem} {t : TreePtr} {r : NodePtr} {ct ct' : CallTree} {π : Path} {p : NodePtr}

/-- Everything a tree reaches is live. -/
theorem reached_live (h : Tracks m t r ct) (hp : Reaches (childOf m) r p) :
    m.nodes.get p ≠ none := by
  obtain ⟨π, hπ⟩ := hp
  obtain ⟨n, hn, -⟩ := h.live hπ
  rw [hn]
  simp

/-- The top of the stack is the node of the open path. -/
theorem top (h : Tracks m t r ct) : ∃ pTop rest,
    m.trees.get t = some (ct.object r (pTop :: rest)) ∧
      walk (childOf m) r ct.active = some pTop := by
  obtain ⟨stack, ht, hs⟩ := h.tree
  obtain ⟨pTop, rest, rfl, hw⟩ := hs.head
  exact ⟨pTop, rest, ht, hw⟩

/-- A tree whose objects did not change still is what it was. -/
theorem frame (h : Tracks m t r ct) (ht : m'.trees.get t = m.trees.get t)
    (hn : ∀ p, Reaches (childOf m) r p → m'.nodes.get p = m.nodes.get p) : Tracks m' t r ct := by
  have hedge : ∀ v, Reaches (childOf m) r v → ∀ k, childOf m' v k = childOf m v k :=
    fun v hv k => childOf_congr (hn v hv) k
  have hwalk := walk_congr hedge
  obtain ⟨stack, htree, hs⟩ := h.tree
  refine ⟨⟨stack, ht.trans htree, hs.congr fun σ _ => hwalk σ⟩, h.tidy.congr hedge, ?_, ?_, ?_⟩
  · intro π p hp
    rw [hwalk] at hp
    obtain ⟨n, hget, hrest⟩ := h.live hp
    exact ⟨n, (hn p ⟨π, hp⟩).trans hget, hrest⟩
  · intro π hπ
    rw [hwalk] at hπ
    exact h.absent hπ
  · intro π p hp
    rw [hwalk] at hp
    exact h.named hp

/-- What is read off the memory is the call tree tracked. -/
theorem viewTree (h : Tracks m t r ct) : m.viewTree t = some ct := by
  obtain ⟨stack, ht, hs⟩ := h.tree
  have hnode : ∀ π, (m.nodeAt r π).map (·.data) = ct.node π := by
    intro π
    unfold Mem.nodeAt
    cases hw : walk (childOf m) r π with
    | none => exact (h.absent hw).symm
    | some p =>
      obtain ⟨n, hn, -, -, hdata⟩ := h.live hw
      rw [Option.bind_some, hn, hdata]
      rfl
  have hopen : ∀ {π stack}, Spells (childOf m) r π stack → m.openNames stack = π := by
    intro π
    induction π with
    | nil => rintro _ rfl; rfl
    | cons name π ih =>
      rintro _ ⟨v, s, rfl, hv, hs⟩
      obtain ⟨n, hn, hname, -⟩ := h.live hv
      have hne := hs.ne_nil
      rw [Mem.openNames, List.dropLast_cons_of_ne_nil hne, List.map_cons, hn]
      exact congrArg₂ List.cons hname (ih hs)
  unfold Mem.viewTree
  rw [ht]
  simp only [CallTree.object, Option.bind_eq_bind, Option.bind_some, hnode, hopen hs]

end Tracks

/-! ## One step of one tree -/

/-- From `m` to `m'` the tree at `t` became `ct'`. Its nodes keep their paths, the nodes it gained
    are new, and nothing outside it was touched. -/
structure TreeStep (m m' : Mem) (t : TreePtr) (r : NodePtr) (ct' : CallTree) : Prop where
  tracks : Tracks m' t r ct'
  walks : ∀ {π p}, walk (childOf m) r π = some p → walk (childOf m') r π = some p
  gained : ∀ {p}, Reaches (childOf m') r p → Reaches (childOf m) r p ∨ m.nodes.get p = none
  nodes : ∀ {p}, ¬ Reaches (childOf m) r p → m.nodes.get p ≠ none →
    m'.nodes.get p = m.nodes.get p
  dead : ∀ {p}, p < m.nodes.next → m.nodes.get p = none → m'.nodes.get p = none
  next : m.nodes.next ≤ m'.nodes.next
  trees : ∀ {t'}, t' ≠ t → m'.trees.get t' = m.trees.get t'
  processMap : m'.processMap = m.processMap

namespace TreeStep

variable {m m' m'' : Mem} {t : TreePtr} {r : NodePtr} {ct ct' ct'' : CallTree}

/-- Steps of the same tree compose. -/
theorem trans (h : TreeStep m m' t r ct') (h' : TreeStep m' m'' t r ct'') :
    TreeStep m m'' t r ct'' where
  tracks := h'.tracks
  walks hp := h'.walks (h.walks hp)
  gained := by
    intro p hp
    rcases h'.gained hp with hp' | hdead
    · exact h.gained hp'
    · by_cases hr : Reaches (childOf m) r p
      · exact Or.inl hr
      · -- a node that is dead after the first step and outside the tree was dead before it
        refine Or.inr (Classical.byContradiction fun hlive => ?_)
        exact hlive ((h.nodes hr hlive).symm.trans hdead)
  nodes := by
    intro p hr hlive
    have hmid := h.nodes hr hlive
    have hr' : ¬ Reaches (childOf m') r p := fun hp =>
      (h.gained hp).elim hr hlive
    exact (h'.nodes hr' (hmid ▸ hlive)).trans hmid
  dead hp hd := h'.dead (Nat.lt_of_lt_of_le hp h.next) (h.dead hp hd)
  next := Nat.le_trans h.next h'.next
  trees ht := (h'.trees ht).trans (h.trees ht)
  processMap := h'.processMap.trans h.processMap

/-- A step that leaves every edge where it was: the tree has the same nodes before and after. -/
theorem of_sameShape (htracks : Tracks m' t r ct')
    (hedge : childOf m' = childOf m) (hnext : m'.nodes.next = m.nodes.next)
    (hnodes : ∀ p, ¬ Reaches (childOf m) r p → m'.nodes.get p = m.nodes.get p)
    (hdead : ∀ p, m.nodes.get p = none → m'.nodes.get p = none)
    (htrees : ∀ t', t' ≠ t → m'.trees.get t' = m.trees.get t')
    (hmap : m'.processMap = m.processMap) : TreeStep m m' t r ct' where
  tracks := htracks
  walks hp := by rw [hedge]; exact hp
  gained hp := Or.inl (by rw [hedge] at hp; exact hp)
  nodes hr _ := hnodes _ hr
  dead _ hd := hdead _ hd
  next := Nat.le_of_eq hnext.symm
  trees ht := htrees _ ht
  processMap := hmap

end TreeStep

/-! ## All trees -/

/-- The thread map's entry for `(pID, tID)` is the tree at `t`, and that is `ct`, its tree in
    `w`. -/
structure At (m : Mem) (w : World) (pID : pid_t) (tID : pthread_t) (t : TreePtr) (r : NodePtr)
    (ct : CallTree) : Prop where
  ptr : m.treePtr pID tID = some t
  spec : w.tree pID tID = some ct
  idThread : ct.idThread = tID
  tracks : Tracks m t r ct

structure Rep (m : Mem) (w : World) : Prop where
  registered : ∀ pID, m.processMap.contains pID = w.registered pID
  idProcess : ∀ {pID : pid_t} {proc : PerfProcess}, m.processMap[pID]? = some proc →
    proc.idProcess = pID
  absent : ∀ {pID tID}, m.treePtr pID tID = none → w.tree pID tID = none
  present : ∀ {pID tID t}, m.treePtr pID tID = some t → ∃ r ct, At m w pID tID t r ct
  apart : ∀ {pID tID t r ct pID' tID' t' r' ct' p}, At m w pID tID t r ct →
    At m w pID' tID' t' r' ct' → Reaches (childOf m) r p → Reaches (childOf m) r' p →
    pID = pID' ∧ tID = tID'

/-- How the old nodes fared: those of a tree that is still there have their paths, those of a tree
    that went are dead, and what was dead stays dead. -/
structure Evolve (m : Mem) (w : World) (m' : Mem) (w' : World) : Prop where
  rep : Rep m' w'
  stays : ∀ {pID tID t r ct ct'}, At m w pID tID t r ct → w'.tree pID tID = some ct' →
    At m' w' pID tID t r ct' ∧
      ∀ {π p}, walk (childOf m) r π = some p → walk (childOf m') r π = some p
  goes : ∀ {pID tID t r ct p}, At m w pID tID t r ct → w'.tree pID tID = none →
    Reaches (childOf m) r p → m'.nodes.get p = none
  dead : ∀ {p}, p < m.nodes.next → m.nodes.get p = none → m'.nodes.get p = none
  next : m.nodes.next ≤ m'.nodes.next

namespace Rep

variable {m m' : Mem} {w w' : World} {pID pID' : pid_t} {tID tID' : pthread_t}
  {t t' : TreePtr} {r r' : NodePtr} {ct ct' : CallTree} {p : NodePtr}

theorem at_of_tree (h : Rep m w) (hct : w.tree pID tID = some ct) :
    ∃ t r, At m w pID tID t r ct := by
  cases ht : m.treePtr pID tID with
  | none => rw [h.absent ht] at hct; exact absurd hct (by simp)
  | some t =>
    obtain ⟨r, ct₀, hA⟩ := h.present ht
    obtain rfl := Option.some.inj (hA.spec.symm.trans hct)
    exact ⟨t, r, hA⟩

theorem treePtr_none_iff (h : Rep m w) : m.treePtr pID tID = none ↔ w.tree pID tID = none := by
  refine ⟨h.absent, fun hw => ?_⟩
  cases ht : m.treePtr pID tID with
  | none => rfl
  | some t =>
    obtain ⟨r, ct, hA⟩ := h.present ht
    rw [hA.spec] at hw
    exact absurd hw (by simp)

/-- **The view is the world.** -/
theorem view (h : Rep m w) (pID : pid_t) (tID : pthread_t) :
    m.view pID tID = w.tree pID tID := by
  unfold Mem.view
  cases ht : m.treePtr pID tID with
  | none => rw [h.absent ht]; rfl
  | some t =>
    obtain ⟨r, ct, hA⟩ := h.present ht
    rw [hA.spec, Option.bind_some, hA.tracks.viewTree]

theorem root_eq (hA : At m w pID tID t r ct) (hA' : At m w pID' tID' t r' ct') : r = r' := by
  obtain ⟨_, ht, -⟩ := hA.tracks.tree
  obtain ⟨_, ht', -⟩ := hA'.tracks.tree
  have h := congrArg PerfTree.rootNode (Option.some.inj (ht.symm.trans ht'))
  exact Option.some.inj h

/-- A tree has one entry in one thread map. -/
theorem ptr_inj (h : Rep m w) (hA : At m w pID tID t r ct) (hA' : At m w pID' tID' t r' ct') :
    pID = pID' ∧ tID = tID' := by
  have hr := root_eq hA hA'
  exact h.apart hA hA' .refl (hr ▸ .refl)

/-- A registered tree is in a registered process. -/
theorem registered_of_tree (h : Rep m w) (hct : w.tree pID tID = some ct) :
    w.registered pID = true := by
  obtain ⟨t, r, hA⟩ := h.at_of_tree hct
  obtain ⟨proc, hproc, -⟩ := Mem.treePtr_eq_some.mp hA.ptr
  rw [← h.registered, Std.ExtTreeMap.contains_eq_isSome_getElem?, hproc]
  rfl

/-- Contrapositive of the above, for the `false` that a look-up answers. -/
theorem tree_none_of_unregistered (h : Rep m w) (hreg : w.registered pID = false) :
    w.tree pID tID = none := by
  cases hct : w.tree pID tID with
  | none => rfl
  | some ct =>
    rw [h.registered_of_tree hct] at hreg
    exact absurd hreg (by simp)

theorem process_of_registered (h : Rep m w) (hreg : w.registered pID = true) :
    ∃ proc, m.processMap[pID]? = some proc := by
  rw [← h.registered, Std.ExtTreeMap.contains_eq_isSome_getElem?] at hreg
  exact Option.isSome_iff_exists.mp hreg

/-- **One tree is put in place** — a new one, or an old one after a step — and no other tree's
    objects are touched. `own` is what the tree had before, nothing for a new one. -/
theorem put (h : Rep m w) (hT : Tracks m' t r ct') (hct : ct'.idThread = tID)
    (own : NodePtr → Prop)
    (hown : ∀ {pID' tID' t' r' ct'}, ¬ (pID' = pID ∧ tID' = tID) → At m w pID' tID' t' r' ct' →
      t' ≠ t ∧ ∀ p, Reaches (childOf m) r' p → ¬ own p)
    (hreg : ∀ p, m'.processMap.contains p = w'.registered p)
    (hid : ∀ {pID : pid_t} {proc : PerfProcess}, m'.processMap[pID]? = some proc →
      proc.idProcess = pID)
    (hptr : ∀ p s, m'.treePtr p s = if p = pID ∧ s = tID then some t else m.treePtr p s)
    (hw : ∀ p s, w'.tree p s = if p = pID ∧ s = tID then some ct' else w.tree p s)
    (hgained : ∀ {p}, Reaches (childOf m') r p → own p ∨ m.nodes.get p = none)
    (hnodes : ∀ {p}, ¬ own p → m.nodes.get p ≠ none → m'.nodes.get p = m.nodes.get p)
    (htrees : ∀ {t'}, t' ≠ t → m.trees.get t' ≠ none → m'.trees.get t' = m.trees.get t') :
    Rep m' w' ∧ ∀ {pID' tID' t' r' ct'}, ¬ (pID' = pID ∧ tID' = tID) →
      At m w pID' tID' t' r' ct' → At m' w' pID' tID' t' r' ct' ∧
        ∀ π, walk (childOf m') r' π = walk (childOf m) r' π := by
  have hself : At m' w' pID tID t r ct' :=
    ⟨by rw [hptr, if_pos ⟨rfl, rfl⟩], by rw [hw, if_pos ⟨rfl, rfl⟩], hct, hT⟩
  -- the other trees are where they were
  have hother : ∀ {pID' tID' t' r' ct'}, ¬ (pID' = pID ∧ tID' = tID) →
      At m w pID' tID' t' r' ct' →
        (∀ p, Reaches (childOf m) r' p → m'.nodes.get p = m.nodes.get p) ∧
        At m' w' pID' tID' t' r' ct' := by
    intro pID' tID' t' r' ct' hne hA
    obtain ⟨ht, hdis⟩ := hown hne hA
    obtain ⟨stack, htree, -⟩ := hA.tracks.tree
    have hn : ∀ p, Reaches (childOf m) r' p → m'.nodes.get p = m.nodes.get p :=
      fun p hp => hnodes (hdis p hp) (hA.tracks.reached_live hp)
    refine ⟨hn, ?_, ?_, hA.idThread, hA.tracks.frame (htrees ht (by rw [htree]; simp)) hn⟩
    · rw [hptr, if_neg hne]; exact hA.ptr
    · rw [hw, if_neg hne]; exact hA.spec
  have hwalk : ∀ {pID' tID' t' r' ct'}, ¬ (pID' = pID ∧ tID' = tID) →
      At m w pID' tID' t' r' ct' → ∀ π, walk (childOf m') r' π = walk (childOf m) r' π :=
    fun hne hA => walk_congr fun v hv k => childOf_congr ((hother hne hA).1 v hv) k
  -- and have no node in common with this one
  have hdisj : ∀ {pID' tID' t' r' ct' p}, ¬ (pID' = pID ∧ tID' = tID) →
      At m w pID' tID' t' r' ct' → Reaches (childOf m') r p → ¬ Reaches (childOf m') r' p := by
    intro pID' tID' t' r' ct' p hne hA hp hp'
    obtain ⟨π, hπ⟩ := hp'
    rw [hwalk hne hA] at hπ
    rcases hgained hp with ho | hdead
    · exact (hown hne hA).2 p ⟨π, hπ⟩ ho
    · exact hA.tracks.reached_live ⟨π, hπ⟩ hdead
  -- every entry is this one or an old one
  have hcase : ∀ {pID' tID' t' r' ct''}, At m' w' pID' tID' t' r' ct'' →
      (pID' = pID ∧ tID' = tID ∧ r' = r) ∨
        (¬ (pID' = pID ∧ tID' = tID) ∧ At m w pID' tID' t' r' ct'') := by
    intro pID' tID' t' r' ct'' hA
    by_cases hk : pID' = pID ∧ tID' = tID
    · obtain ⟨rfl, rfl⟩ := hk
      have ht : t' = t := by
        have := hA.ptr
        rw [hptr, if_pos ⟨rfl, rfl⟩] at this
        exact (Option.some.inj this).symm
      subst ht
      exact Or.inl ⟨rfl, rfl, root_eq hA hself⟩
    · have hold := hA.ptr
      rw [hptr, if_neg hk] at hold
      obtain ⟨r₀, ct₀, hA₀⟩ := h.present hold
      have hA₁ := (hother hk hA₀).2
      obtain rfl := root_eq hA hA₁
      obtain rfl := Option.some.inj (hA.spec.symm.trans hA₁.spec)
      exact Or.inr ⟨hk, hA₀⟩
  refine ⟨⟨hreg, hid, ?_, ?_, ?_⟩, fun hne hA => ⟨(hother hne hA).2, hwalk hne hA⟩⟩
  · intro pID' tID' hn
    by_cases hk : pID' = pID ∧ tID' = tID
    · rw [hptr, if_pos hk] at hn; exact absurd hn (by simp)
    · rw [hptr, if_neg hk] at hn
      rw [hw, if_neg hk]
      exact h.absent hn
  · intro pID' tID' t' ht
    by_cases hk : pID' = pID ∧ tID' = tID
    · obtain ⟨rfl, rfl⟩ := hk
      rw [hptr, if_pos ⟨rfl, rfl⟩] at ht
      obtain rfl := Option.some.inj ht
      exact ⟨r, ct', hself⟩
    · rw [hptr, if_neg hk] at ht
      obtain ⟨r₀, ct₀, hA₀⟩ := h.present ht
      exact ⟨r₀, ct₀, (hother hk hA₀).2⟩
  · intro pID₁ tID₁ t₁ r₁ ct₁ pID₂ tID₂ t₂ r₂ ct₂ p hA₁ hA₂ hp₁ hp₂
    rcases hcase hA₁ with ⟨rfl, rfl, rfl⟩ | ⟨hk₁, hO₁⟩ <;>
      rcases hcase hA₂ with ⟨rfl, rfl, rfl⟩ | ⟨hk₂, hO₂⟩
    · exact ⟨rfl, rfl⟩
    · exact absurd hp₂ (hdisj hk₂ hO₂ hp₁)
    · exact absurd hp₁ (hdisj hk₁ hO₁ hp₂)
    · obtain ⟨π₁, hπ₁⟩ := hp₁
      obtain ⟨π₂, hπ₂⟩ := hp₂
      rw [hwalk hk₁ hO₁] at hπ₁
      rw [hwalk hk₂ hO₂] at hπ₂
      exact h.apart hO₁ hO₂ ⟨π₁, hπ₁⟩ ⟨π₂, hπ₂⟩

/-- A step of one tree is a step of the whole. -/
theorem step (h : Rep m w) (hA : At m w pID tID t r ct) (hS : TreeStep m m' t r ct')
    (hct : ct'.idThread = ct.idThread) : Evolve m w m' (w.set pID tID (some ct')) := by
  have hptr : ∀ p s, m'.treePtr p s = if p = pID ∧ s = tID then some t else m.treePtr p s := by
    intro p s
    rw [Mem.treePtr_congr hS.processMap]
    split
    · next hk => rw [hk.1, hk.2]; exact hA.ptr
    · rfl
  obtain ⟨hrep, hrest⟩ := h.put hS.tracks (hct.trans hA.idThread) (Reaches (childOf m) r)
    (fun {pID' tID' t' r' ct''} hne hA' => ⟨fun ht => hne (by
        subst ht
        exact h.ptr_inj hA' hA),
      fun p hp hp' => hne (h.apart hA' hA hp hp')⟩)
    (fun p => by rw [hS.processMap, World.set_registered]; exact h.registered p)
    (fun hp => h.idProcess (hS.processMap ▸ hp))
    hptr (fun p s => World.set_tree w pID p tID s (some ct')) hS.gained hS.nodes (fun ht _ => hS.trees ht)
  refine ⟨hrep, ?_, ?_, hS.dead, hS.next⟩
  · intro pID' tID' t' r' ct₁ ct₂ hA' hct₂
    by_cases hk : pID' = pID ∧ tID' = tID
    · obtain ⟨rfl, rfl⟩ := hk
      obtain rfl := Option.some.inj (hA'.ptr.symm.trans hA.ptr)
      obtain rfl := root_eq hA' hA
      rw [World.set_tree, if_pos ⟨rfl, rfl⟩] at hct₂
      obtain rfl := Option.some.inj hct₂
      refine ⟨⟨?_, ?_, hct.trans hA.idThread, hS.tracks⟩, hS.walks⟩
      · rw [hptr, if_pos ⟨rfl, rfl⟩]
      · rw [World.set_tree, if_pos ⟨rfl, rfl⟩]
    · obtain ⟨hA₂, hwalk⟩ := hrest hk hA'
      obtain rfl := Option.some.inj (hA₂.spec.symm.trans hct₂)
      exact ⟨hA₂, fun {π p} hp => (hwalk π).trans hp⟩
  · intro pID' tID' t' r' ct₁ p hA' hnone hp
    rw [World.set_tree] at hnone
    split at hnone
    · exact absurd hnone (by simp)
    · rw [hA'.spec] at hnone; exact absurd hnone (by simp)

/-- **Some trees are dropped**, those of the keys in `K`: their entries and their nodes are gone,
    and no other object is touched. -/
theorem drop (h : Rep m w) (K : pid_t → pthread_t → Prop)
    (hreg : ∀ p, m'.processMap.contains p = w'.registered p)
    (hid : ∀ {pID : pid_t} {proc : PerfProcess}, m'.processMap[pID]? = some proc →
      proc.idProcess = pID)
    (hgone : ∀ {p s}, K p s → m'.treePtr p s = none ∧ w'.tree p s = none)
    (hkept : ∀ {p s}, ¬ K p s → m'.treePtr p s = m.treePtr p s ∧ w'.tree p s = w.tree p s)
    (hdead : ∀ {p s t r ct q}, K p s → At m w p s t r ct → Reaches (childOf m) r q →
      m'.nodes.get q = none)
    (hnodes : ∀ {q}, (∀ {p s t r ct}, K p s → At m w p s t r ct → ¬ Reaches (childOf m) r q) →
      m'.nodes.get q = m.nodes.get q)
    (hstay : ∀ {q}, m.nodes.get q = none → m'.nodes.get q = none)
    (hnext : m'.nodes.next = m.nodes.next)
    (htrees : ∀ {p s t r ct}, ¬ K p s → At m w p s t r ct → m'.trees.get t = m.trees.get t) :
    Evolve m w m' w' := by
  have hsame : ∀ {p s t r ct}, ¬ K p s → At m w p s t r ct →
      ∀ q, Reaches (childOf m) r q → m'.nodes.get q = m.nodes.get q := by
    intro p s t r ct hk hA q hq
    refine hnodes fun {p' s' t' r' ct'} hk' hA' hq' => hk ?_
    obtain ⟨rfl, rfl⟩ := h.apart hA hA' hq hq'
    exact hk'
  have hat : ∀ {p s t r ct}, ¬ K p s → At m w p s t r ct → At m' w' p s t r ct :=
    fun hk hA => ⟨(hkept hk).1.trans hA.ptr, (hkept hk).2.trans hA.spec, hA.idThread,
      hA.tracks.frame (htrees hk hA) (hsame hk hA)⟩
  have hwalk : ∀ {p s t r ct}, ¬ K p s → At m w p s t r ct →
      ∀ π, walk (childOf m') r π = walk (childOf m) r π :=
    fun hk hA => walk_congr fun v hv k => childOf_congr (hsame hk hA v hv) k
  have hcase : ∀ {p s t r ct}, At m' w' p s t r ct → ¬ K p s ∧ At m w p s t r ct := by
    intro p s t r ct hA
    have hk : ¬ K p s := fun hk => absurd (hA.ptr.symm.trans (hgone hk).1) (by simp)
    obtain ⟨r₀, ct₀, hA₀⟩ := h.present ((hkept hk).1.symm.trans hA.ptr)
    have hA₁ := hat hk hA₀
    obtain rfl := root_eq hA hA₁
    obtain rfl := Option.some.inj (hA.spec.symm.trans hA₁.spec)
    exact ⟨hk, hA₀⟩
  refine ⟨⟨hreg, hid, ?_, ?_, ?_⟩, ?_, ?_, fun _ => hstay, Nat.le_of_eq hnext.symm⟩
  · intro p s hn
    by_cases hk : K p s
    · exact (hgone hk).2
    · rw [(hkept hk).2]
      exact h.absent ((hkept hk).1.symm.trans hn)
  · intro p s t ht
    by_cases hk : K p s
    · rw [(hgone hk).1] at ht; exact absurd ht (by simp)
    · obtain ⟨r, ct, hA⟩ := h.present ((hkept hk).1.symm.trans ht)
      exact ⟨r, ct, hat hk hA⟩
  · intro p₁ s₁ t₁ r₁ ct₁ p₂ s₂ t₂ r₂ ct₂ q hA₁ hA₂ hq₁ hq₂
    obtain ⟨hk₁, hO₁⟩ := hcase hA₁
    obtain ⟨hk₂, hO₂⟩ := hcase hA₂
    obtain ⟨π₁, hπ₁⟩ := hq₁
    obtain ⟨π₂, hπ₂⟩ := hq₂
    rw [hwalk hk₁ hO₁] at hπ₁
    rw [hwalk hk₂ hO₂] at hπ₂
    exact h.apart hO₁ hO₂ ⟨π₁, hπ₁⟩ ⟨π₂, hπ₂⟩
  · intro p s t r ct ct' hA hct'
    by_cases hk : K p s
    · rw [(hgone hk).2] at hct'; exact absurd hct' (by simp)
    · have hA' := hat hk hA
      obtain rfl := Option.some.inj (hA'.spec.symm.trans hct')
      exact ⟨hA', fun {π q} hq => (hwalk hk hA π).trans hq⟩
  · intro p s t r ct q hA hn hq
    by_cases hk : K p s
    · exact hdead hk hA hq
    · rw [(hkept hk).2, hA.spec] at hn; exact absurd hn (by simp)

end Rep

namespace Evolve

variable {m m' m'' : Mem} {w w' w'' : World}

theorem trans (h : Evolve m w m' w') (h' : Evolve m' w' m'' w'')
    (hmono : ∀ {p s}, w.tree p s ≠ none → w''.tree p s ≠ none → w'.tree p s ≠ none) :
    Evolve m w m'' w'' where
  rep := h'.rep
  stays := by
    intro p s t r ct ct'' hA hct''
    have hmid := hmono (p := p) (s := s) (by rw [hA.spec]; simp) (by rw [hct'']; simp)
    obtain ⟨ct', hct'⟩ := Option.ne_none_iff_exists'.mp hmid
    obtain ⟨hA', hw'⟩ := h.stays hA hct'
    obtain ⟨hA'', hw''⟩ := h'.stays hA' hct''
    exact ⟨hA'', fun hp => hw'' (hw' hp)⟩
  goes := by
    intro p s t r ct q hA hn hq
    have hlt : q < m.nodes.next := by
      obtain ⟨n, hn'⟩ := Option.ne_none_iff_exists'.mp (hA.tracks.reached_live hq)
      exact Store.lt_next hn'
    cases hct' : w'.tree p s with
    | none => exact h'.dead (Nat.lt_of_lt_of_le hlt h.next) (h.goes hA hct' hq)
    | some ct' =>
      obtain ⟨hA', hw'⟩ := h.stays hA hct'
      obtain ⟨π, hπ⟩ := hq
      exact h'.goes hA' hn ⟨π, hw' hπ⟩
  dead hp hd := h'.dead (Nat.lt_of_lt_of_le hp h.next) (h.dead hp hd)
  next := Nat.le_trans h.next h'.next

/-- Nothing but the log, the clocks and unused entries of the process map changed. -/
theorem of_same (h : Rep m w) (hnodes : m'.nodes = m.nodes) (htrees : m'.trees = m.trees)
    (hptr : ∀ p s, m'.treePtr p s = m.treePtr p s) (hw : w'.tree = w.tree)
    (hreg : ∀ p, m'.processMap.contains p = w'.registered p)
    (hid : ∀ {pID : pid_t} {proc : PerfProcess}, m'.processMap[pID]? = some proc →
      proc.idProcess = pID) : Evolve m w m' w' :=
  h.drop (fun _ _ => False) hreg hid (fun hk => hk.elim)
    (fun {p s} _ => ⟨hptr p s, by rw [hw]⟩) (fun hk => hk.elim)
    (fun _ => by rw [hnodes]) (fun hd => by rw [hnodes]; exact hd) (by rw [hnodes])
    (fun _ _ => by rw [htrees])

theorem refl (h : Rep m w) : Evolve m w m w :=
  of_same h rfl rfl (fun _ _ => rfl) rfl h.registered h.idProcess

/-- A log line changes nothing. -/
theorem print (h : Rep m w) (line : Printed) : Evolve m w (m.print line) w :=
  of_same h rfl rfl (fun _ _ => rfl) rfl h.registered h.idProcess

end Evolve

/-! ## A pointer into a tree -/

/-- `p` is the node at the path `π` of the thread's tree. -/
def NodeIs (m : Mem) (w : World) (pID : pid_t) (tID : pthread_t) (π : Path) (p : NodePtr) : Prop :=
  ∃ t r ct, At m w pID tID t r ct ∧ walk (childOf m) r π = some p

section NodeIs

variable {m m' : Mem} {w w' : World} {pID : pid_t} {tID : pthread_t} {π π' : Path} {p : NodePtr}

theorem NodeIs.evolve (hp : NodeIs m w pID tID π p) (h : Evolve m w m' w')
    (hw : w'.tree pID tID ≠ none) : NodeIs m' w' pID tID π p := by
  obtain ⟨t, r, ct, hA, hπ⟩ := hp
  obtain ⟨ct', hct'⟩ := Option.ne_none_iff_exists'.mp hw
  obtain ⟨hA', hwalk⟩ := h.stays hA hct'
  exact ⟨t, r, ct', hA', hwalk hπ⟩

theorem NodeIs.gone (hp : NodeIs m w pID tID π p) (h : Evolve m w m' w')
    (hw : w'.tree pID tID = none) : m'.nodes.get p = none := by
  obtain ⟨t, r, ct, hA, hπ⟩ := hp
  exact h.goes hA hw ⟨π, hπ⟩

theorem NodeIs.live (hp : NodeIs m w pID tID π p) : m.nodes.get p ≠ none := by
  obtain ⟨t, r, ct, hA, hπ⟩ := hp
  exact hA.tracks.reached_live ⟨π, hπ⟩

end NodeIs
end RdkPerf

import RdkPerf.Proof.Rep

/-!
# The two recursions: a report and a destructor

`PerfNode::ReportData` and `~PerfNode` have one shape: do something on the way in, recurse into
every child in map order, do something to the node itself on the way out. `sweep` is proved once
for that shape and says what such a recursion comes to: it returns, every node reached was changed
once, and no other. `Swept F S m m'` is that conclusion — `F` happened to the nodes in `S` — and
`Walked` is its log: which nodes were visited, and what was printed of each.

The induction is on the nesting bound. A tree is what makes it go through: the subtrees of two
children share nothing, so each child still sees its own nodes as they were; and a path visits no
node twice, so the bound the model gives the recursion is never reached.
-/

namespace RdkPerf

open Lib

/-- `F` happened to the nodes in `S`, nothing happened to the others, and the log grew. -/
structure Swept (F : Option PerfNode → Option PerfNode) (S : NodePtr → Prop) (m m' : Mem) :
    Prop where
  inside : ∀ {q}, S q → m'.nodes.get q = F (m.nodes.get q)
  outside : ∀ {q}, ¬ S q → m'.nodes.get q = m.nodes.get q
  next : m'.nodes.next = m.nodes.next
  trees : m'.trees = m.trees
  processMap : m'.processMap = m.processMap
  log : m.log <+: m'.log

namespace Swept

variable {F : Option PerfNode → Option PerfNode} {S T : NodePtr → Prop} {m m' m'' : Mem}

theorem of_nodes_eq (hn : m'.nodes = m.nodes) (ht : m'.trees = m.trees)
    (hp : m'.processMap = m.processMap) (hl : m.log <+: m'.log) :
    Swept F (fun _ => False) m m' where
  inside hq := hq.elim
  outside _ := by rw [hn]
  next := by rw [hn]
  trees := ht
  processMap := hp
  log := hl

theorem union (h : Swept F S m m') (h' : Swept F T m' m'') (hST : ∀ q, S q → ¬ T q) :
    Swept F (fun q => S q ∨ T q) m m'' where
  inside := by
    rintro q (hq | hq)
    · rw [h'.outside (hST q hq), h.inside hq]
    · rw [h'.inside hq, h.outside (fun hs => hST q hs hq)]
  outside := by
    intro q hq
    rw [h'.outside (fun hT => hq (Or.inr hT)), h.outside (fun hS => hq (Or.inl hS))]
  next := h'.next.trans h.next
  trees := h'.trees.trans h.trees
  processMap := h'.processMap.trans h.processMap
  log := h.log.trans h'.log

theorem congr (h : Swept F S m m') (hST : ∀ q, S q ↔ T q) : Swept F T m m' where
  inside hq := h.inside ((hST _).mpr hq)
  outside hq := h.outside fun hs => hq ((hST _).mp hs)
  next := h.next
  trees := h.trees
  processMap := h.processMap
  log := h.log

end Swept

/-- The nodes in `S` were visited once each, in the order of `visited` and at the levels it gives,
    and `line` was printed of each, of the node as it was before. -/
structure Walked (line : UInt32 → PerfNode → List Printed) (S : NodePtr → Prop) (m m' : Mem)
    (visited : List (UInt32 × NodePtr)) : Prop where
  nodup : (visited.map Prod.snd).Nodup
  mem : ∀ {q}, q ∈ visited.map Prod.snd ↔ S q
  log : m'.log = m.log ++ visited.flatMap fun v => (m.nodes.get v.2).elim [] (line v.1)

namespace Walked

variable {line : UInt32 → PerfNode → List Printed} {S T : NodePtr → Prop} {m m' m'' : Mem}
  {visited visited' : List (UInt32 × NodePtr)}

theorem nil (hlog : m'.log = m.log) : Walked line (fun _ => False) m m' [] where
  nodup := List.nodup_nil
  mem := by simp
  log := by simp [hlog]

/-- One walk after another, in nodes that the first left as they were. -/
theorem append (h : Walked line S m m' visited) (h' : Walked line T m' m'' visited')
    (hST : ∀ q, S q → ¬ T q) (hsame : ∀ q, T q → m'.nodes.get q = m.nodes.get q) :
    Walked line (fun q => S q ∨ T q) m m'' (visited ++ visited') where
  nodup := by
    rw [List.map_append]
    refine h.nodup.append h'.nodup fun q hq hq' => ?_
    exact hST q (h.mem.mp hq) (h'.mem.mp hq')
  mem := by
    intro q
    rw [List.map_append, List.mem_append, h.mem, h'.mem]
  log := by
    have hlines : (visited'.flatMap fun v => (m'.nodes.get v.2).elim [] (line v.1)) =
        visited'.flatMap fun v => (m.nodes.get v.2).elim [] (line v.1) := by
      refine List.flatMap_congr fun v hv => ?_
      rw [hsame v.2 (h'.mem.mp (List.mem_map_of_mem hv))]
    rw [h'.log, h.log, hlines, List.flatMap_append, List.append_assoc]

theorem leave (h : Walked line S m m' visited) (hlog : m''.log = m'.log) :
    Walked line S m m'' visited :=
  ⟨h.nodup, h.mem, hlog.trans h.log⟩

theorem congr (h : Walked line S m m' visited) (hST : ∀ q, S q ↔ T q) :
    Walked line T m m' visited where
  nodup := h.nodup
  mem := h.mem.trans (hST _)
  log := h.log

end Walked

/-- One call of such a recursion: print a `line` of the node, visit the children, `leave` the
    node. -/
structure Visits (F : Option PerfNode → Option PerfNode)
    (line : UInt32 → PerfNode → List Printed)
    (visit : Nat → Mem → NodePtr → UInt32 → Except Fault Mem) : Prop where
  call : ∀ (fuel : Nat) {m p n} (nLevel : UInt32), m.nodes.get p = some n →
    ∃ m₀ leave, Swept F (fun _ => False) m m₀ ∧ m₀.log = m.log ++ line nLevel n ∧
      (∀ m₁, Swept F (· = p) m₁ (leave m₁) ∧ (leave m₁).log = m₁.log) ∧
      visit (fuel + 1) m p nLevel =
        leave <$> n.childNodes.toList.foldlM (fun m e => visit fuel m e.2 (nLevel + 1)) m₀

section Sweep

variable {F : Option PerfNode → Option PerfNode} {line : UInt32 → PerfNode → List Printed}
  {visit : Nat → Mem → NodePtr → UInt32 → Except Fault Mem}

/-- The loop over the children: each of them is swept. -/
theorem sweep_children {fuel : Nat} {m m₀ : Mem} {p : NodePtr} {n : PerfNode} {nLevel : UInt32}
    (ih : ∀ {m c} (nLevel : UInt32), Tidy (childOf m) c →
      (∀ q, Reaches (childOf m) c q → m.nodes.get q ≠ none) →
      (∀ π q, walk (childOf m) c π = some q → π.length < fuel) →
      ∃ m', visit fuel m c nLevel = .ok m' ∧ Swept F (Reaches (childOf m) c) m m' ∧
        ∃ visited, Walked line (Reaches (childOf m) c) m m' visited)
    (hn : m.nodes.get p = some n) (hm₀ : Swept F (fun _ => False) m m₀)
    (ht : Tidy (childOf m) p) (hlive : ∀ q, Reaches (childOf m) p q → m.nodes.get q ≠ none)
    (hdepth : ∀ π q, walk (childOf m) p π = some q → π.length < fuel + 1) :
    ∃ m₁, n.childNodes.toList.foldlM (fun m e => visit fuel m e.2 nLevel) m₀ = .ok m₁ ∧
      Swept F (fun q => ∃ e ∈ n.childNodes.toList, Reaches (childOf m) e.2 q) m m₁ ∧
      ∃ visited, Walked line (fun q => ∃ e ∈ n.childNodes.toList, Reaches (childOf m) e.2 q) m₀ m₁
        visited := by
  have hchild : ∀ {e}, e ∈ n.childNodes.toList → childOf m p e.1 = some e.2 := by
    intro e he
    unfold childOf
    rw [hn]
    exact mem_entries.mp he
  refine foldlM_total
    (I := fun done m₁ => Swept F (fun q => ∃ e ∈ done, Reaches (childOf m) e.2 q) m m₁ ∧
      ∃ visited, Walked line (fun q => ∃ e ∈ done, Reaches (childOf m) e.2 q) m₀ m₁ visited)
    n.childNodes.toList ?_ ⟨hm₀.congr (by simp), [], (Walked.nil rfl).congr (by simp)⟩
  rintro done ⟨k, c⟩ rest m₁ hsplit ⟨hI, visited, hW⟩
  obtain ⟨hk, hnew⟩ := entries_split hsplit
  have hc : childOf m p k = some c := hchild (e := (k, c)) (by rw [hsplit]; simp)
  -- the subtree of `c` is as it was: the loop has been in other subtrees only
  have hdis : ∀ q, (∃ e ∈ done, Reaches (childOf m) e.2 q) → ¬ Reaches (childOf m) c q := by
    rintro q ⟨⟨k', c'⟩, he, hq'⟩ hq
    have hc' : childOf m p k' = some c' :=
      hchild (e := (k', c')) (by rw [hsplit]; exact List.mem_append_left _ he)
    obtain rfl := ht.sibling hc hc' hq hq'
    exact hnew c' he
  have hsame : ∀ q, Reaches (childOf m) c q → m₁.nodes.get q = m.nodes.get q :=
    fun q hq => hI.outside fun hd => hdis q hd hq
  have hedge : ∀ v, Reaches (childOf m) c v → ∀ j, childOf m₁ v j = childOf m v j :=
    fun v hv j => childOf_congr (hsame v hv) j
  have hreach : ∀ q, Reaches (childOf m₁) c q ↔ Reaches (childOf m) c q := reaches_congr hedge
  have hpc : Reaches (childOf m) p c := Reaches.refl.edge hc
  obtain ⟨m₂, hm₂, hS, visited', hW'⟩ := ih (m := m₁) nLevel ((ht.sub hpc).congr hedge)
    (fun q hq => by
      have hq' := (hreach q).mp hq
      rw [hsame q hq']
      exact hlive q (hpc.trans hq'))
    (fun π q hq => by
      rw [walk_congr hedge] at hq
      have hlen := hdepth (π ++ [k]) q (by
        rw [walk_append, walk_cons, walk_nil, Option.bind_some, hc]
        exact hq)
      rw [List.length_append, List.length_singleton] at hlen
      omega)
  have hapart : ∀ q, (∃ e ∈ done, Reaches (childOf m) e.2 q) → ¬ Reaches (childOf m₁) c q :=
    fun q hq hq' => hdis q hq ((hreach q).mp hq')
  have hdone : ∀ q, ((∃ e ∈ done, Reaches (childOf m) e.2 q) ∨ Reaches (childOf m₁) c q) ↔
      ∃ e ∈ done ++ [(k, c)], Reaches (childOf m) e.2 q := by
    intro q
    simp [hreach, or_and_right, exists_or]
  refine ⟨m₂, hm₂, (hI.union hS hapart).congr hdone, _, (hW.append hW' hapart ?_).congr hdone⟩
  intro q hq
  rw [hsame q ((hreach q).mp hq), hm₀.outside (fun h => h)]

/-- **A recursion over a tree sweeps it**, if it may nest deeper than the tree is. -/
theorem sweep (hv : Visits F line visit) : ∀ {fuel m p} (nLevel : UInt32), Tidy (childOf m) p →
    (∀ q, Reaches (childOf m) p q → m.nodes.get q ≠ none) →
    (∀ π q, walk (childOf m) p π = some q → π.length < fuel) →
    ∃ m', visit fuel m p nLevel = .ok m' ∧ Swept F (Reaches (childOf m) p) m m' ∧
      ∃ visited, Walked line (Reaches (childOf m) p) m m' visited := by
  intro fuel
  induction fuel with
  | zero =>
    intro m p _ _ _ hdepth
    exact absurd (hdepth [] p rfl) (by simp)
  | succ fuel ih =>
    intro m p nLevel ht hlive hdepth
    obtain ⟨n, hn⟩ := Option.ne_none_iff_exists'.mp (hlive p .refl)
    obtain ⟨m₀, leave, hm₀, hline, hleave, hcall⟩ := hv.call fuel nLevel hn
    obtain ⟨m₁, hm₁, hS, visited, hW⟩ := sweep_children ih hn hm₀ ht hlive hdepth
    have hchild : ∀ {e}, e ∈ n.childNodes.toList ↔ childOf m p e.1 = some e.2 := by
      intro e
      unfold childOf
      rw [hn]
      exact mem_entries
    -- no child's subtree has the node itself
    have hself : ∀ q, (∃ e ∈ n.childNodes.toList, Reaches (childOf m) e.2 q) → ¬ q = p := by
      rintro q ⟨e, he, hq⟩ rfl
      exact ht.no_return (hchild.mp he) hq
    have hall : ∀ q, ((∃ e ∈ n.childNodes.toList, Reaches (childOf m) e.2 q) ∨ q = p) ↔
        Reaches (childOf m) p q := by
      intro q
      rw [reaches_iff]
      constructor
      · rintro (⟨e, he, hq⟩ | rfl)
        · exact Or.inr ⟨e.1, e.2, hchild.mp he, hq⟩
        · exact Or.inl rfl
      · rintro (rfl | ⟨k, c, hc, hq⟩)
        · exact Or.inr rfl
        · exact Or.inl ⟨(k, c), hchild.mpr hc, hq⟩
    have hfirst : Walked line (· = p) m m₀ [(nLevel, p)] :=
      ⟨by simp, by simp, by rw [hline]; simp [hn]⟩
    refine ⟨leave m₁, by rw [hcall, hm₁]; rfl, (hS.union (hleave m₁).1 hself).congr hall, _,
      ((hfirst.append hW ?_ ?_).congr ?_).leave (hleave m₁).2⟩
    · rintro q rfl hq
      exact hself q hq rfl
    · exact fun q _ => hm₀.outside fun h => h
    · exact fun q => or_comm.trans (hall q)

end Sweep

/-! ## `ReportData` and `delete` of a node -/

/-- A report that prints everything resets what it printed; one that prints deltas only resets
    nothing. -/
def reported (bShowOnlyDelta : Bool) (n : Option PerfNode) : Option PerfNode :=
  if bShowOnlyDelta then n else n.map fun n => { n with stats := n.stats.resetInterval }

/-- What a report prints of a node. -/
def reportLine (bShowOnlyDelta : Bool) (nLevel : UInt32) (n : PerfNode) : List Printed :=
  [if bShowOnlyDelta then .delta nLevel n.stats.elementName n.stats.nLastDelta
    else .totals nLevel n.stats]

theorem visits_reportData (b : Bool) :
    Visits (reported b) (reportLine b) (PerfNode.reportDataNested b) := by
  refine ⟨fun fuel {m p n} nLevel hn => ?_⟩
  refine ⟨m.print (if b then .delta nLevel n.stats.elementName n.stats.nLastDelta
      else .totals nLevel n.stats), fun m => if b then m else PerfNode.resetInterval m p,
    .of_nodes_eq rfl rfl rfl (List.prefix_append _ _), rfl, fun m₁ => ?_, ?_⟩
  · cases b with
    | true => exact ⟨⟨fun _ => rfl, fun _ => rfl, rfl, rfl, rfl, List.prefix_rfl⟩, rfl⟩
    | false =>
      refine ⟨⟨fun {q} hq => ?_, fun {q} hq => ?_, rfl, rfl, rfl, List.prefix_rfl⟩, rfl⟩
      · show (m₁.nodes.modify p _).get q = _
        rw [Store.get_modify, if_pos hq]
        rfl
      · show (m₁.nodes.modify p _).get q = _
        rw [Store.get_modify, if_neg hq]
  · rw [PerfNode.reportDataNested, Mem.node_eq_ok.mpr hn]
    rfl

theorem visits_delete : Visits (fun _ => none) (fun _ _ => [])
    (fun fuel m p _ => PerfNode.deleteNested fuel m p) := by
  refine ⟨fun fuel {m p n} nLevel hn => ?_⟩
  refine ⟨m, fun m => { m with nodes := m.nodes.free p },
    .of_nodes_eq rfl rfl rfl List.prefix_rfl, (List.append_nil _).symm, fun m₁ => ⟨?_, rfl⟩, ?_⟩
  · refine ⟨fun {q} hq => ?_, fun {q} hq => ?_, rfl, rfl, rfl, List.prefix_rfl⟩
    · show (m₁.nodes.free p).get q = _
      rw [Store.get_free, if_pos hq]
    · show (m₁.nodes.free p).get q = _
      rw [Store.get_free, if_neg hq]
  · rw [PerfNode.deleteNested, Mem.node_eq_ok.mpr hn]
    rfl

section Apply

variable {m : Mem} {t : TreePtr} {r p : NodePtr} {ct : CallTree}

/-- The nesting bound the model passes is above every path of a tree. -/
theorem Tracks.length_lt (hT : Tracks m t r ct) (hp : Reaches (childOf m) r p) {π : Path}
    {q : NodePtr} (hq : walk (childOf m) p π = some q) : π.length < m.nodes.next + 1 := by
  refine Nat.lt_succ_of_lt ((hT.tidy.sub hp).length_lt (fun u hu => ?_) hq)
  obtain ⟨n, hn⟩ := Option.ne_none_iff_exists'.mp (hT.reached_live (hp.trans hu))
  exact Store.lt_next hn

theorem Tracks.reportData_node (hT : Tracks m t r ct) (hp : Reaches (childOf m) r p)
    (nLevel : UInt32) (b : Bool) : ∃ m', PerfNode.reportData m p nLevel b = .ok m' ∧
      Swept (reported b) (Reaches (childOf m) p) m m' ∧
      ∃ visited, Walked (reportLine b) (Reaches (childOf m) p) m m' visited :=
  sweep (visits_reportData b) nLevel (hT.tidy.sub hp)
    (fun _ hq => hT.reached_live (hp.trans hq)) (fun _ _ hq => hT.length_lt hp hq)

theorem Tracks.delete_node (hT : Tracks m t r ct) : ∃ m', PerfNode.delete m r = .ok m' ∧
    Swept (fun _ => none) (Reaches (childOf m) r) m m' := by
  obtain ⟨m', hm', hS, -⟩ := sweep visits_delete 0 hT.tidy (fun _ hq => hT.reached_live hq)
    (fun _ _ hq => hT.length_lt .refl hq)
  exact ⟨m', hm', hS⟩

end Apply
end RdkPerf

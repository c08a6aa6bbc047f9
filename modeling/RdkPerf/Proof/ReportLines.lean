import RdkPerf.Proof.StaleLines
import RdkPerf.Spec.Report

/-!
# What a report prints, line by line

`sweep` says that a report visits every node of a tree once and leaves open in what order. Here the
order is added: the lines are those of `PerfNode.visits`, the walk over the memory as it was when
the report began (`sweep_lines`), although the report resets nodes as it goes. So a report of a
tree shows its call tree (`Tracks.reportData_shown`), and a report of a process shows its trees in
the order of the thread map.
-/

namespace RdkPerf

open Lib

variable {m m' : Mem} {w w' : World} {pID : pid_t} {tID : pthread_t} {t : TreePtr}
  {r p : NodePtr} {ct : CallTree} {b : Bool}

/-! ## The order of the visits -/

/-- The entries of a map come in the order of their keys. -/
theorem entries_sorted {κ β : Type} {cmp : κ → κ → Ordering} [Std.TransCmp cmp]
    (entries : Std.ExtTreeMap κ β cmp) :
    entries.toList.Pairwise fun e e' => cmp e.1 e'.1 = .lt :=
  Std.ExtTreeMap.ordered_keys_toList

theorem PerfNode.visits_suffix {nodes : Store PerfNode} {fuel : Nat} {τ σ : Path} {n : PerfNode}
    (h : (σ, n) ∈ PerfNode.visits nodes fuel p τ) : τ <:+ σ := by
  induction fuel generalizing p τ with
  | zero => exact absurd h List.not_mem_nil
  | succ fuel ih =>
    rw [PerfNode.visits] at h
    cases hn : nodes.get p with
    | none =>
      rw [hn] at h
      exact absurd h List.not_mem_nil
    | some n₀ =>
      rw [hn, Option.elim_some, List.mem_cons, List.mem_flatMap] at h
      cases h with
      | inl heq =>
        obtain ⟨rfl, -⟩ := Prod.mk.inj heq
        exact List.suffix_rfl
      | inr hbelow =>
        obtain ⟨e, -, hvisit⟩ := hbelow
        exact (List.suffix_cons e.1 τ).trans (ih hvisit)

/-- **The visits are in order.** -/
theorem PerfNode.visits_sorted (nodes : Store PerfNode) (fuel : Nat) (p : NodePtr) (τ : Path) :
    ((PerfNode.visits nodes fuel p τ).map Prod.fst).Pairwise Before := by
  induction fuel generalizing p τ with
  | zero => exact List.Pairwise.nil
  | succ fuel ih =>
    rw [PerfNode.visits]
    cases nodes.get p with
    | none => exact List.Pairwise.nil
    | some n =>
      rw [Option.elim_some, List.map_cons, List.map_flatMap]
      apply sorted_below (entries_sorted n.childNodes)
      · intro e _ π hπ
        obtain ⟨visit, hvisit, rfl⟩ := List.mem_map.mp hπ
        exact PerfNode.visits_suffix hvisit
      · exact fun e _ => ih e.2 (e.1 :: τ)

/-- They only see the nodes they reach. -/
theorem PerfNode.visits_congr {fuel : Nat} {τ : Path}
    (hsame : ∀ q, Reaches (childOf m) p q → m'.nodes.get q = m.nodes.get q) :
    PerfNode.visits m'.nodes fuel p τ = PerfNode.visits m.nodes fuel p τ := by
  induction fuel generalizing p τ with
  | zero => rfl
  | succ fuel ih =>
    rw [PerfNode.visits, PerfNode.visits, hsame p .refl]
    cases hn : m.nodes.get p with
    | none => rfl
    | some n =>
      rw [Option.elim_some, Option.elim_some]
      congr 1
      refine List.flatMap_congr fun e he => ih fun q hq => hsame q ?_
      have hchild : childOf m p e.1 = some e.2 := by
        rw [childOf, hn]
        exact mem_entries.mp he
      exact (Reaches.refl.edge hchild).trans hq

/-! ## The lines of a recursion that sweeps -/

section SweepLines

variable {F : Option PerfNode → Option PerfNode} {line : UInt32 → PerfNode → List Printed}
  {visit : Nat → Mem → NodePtr → UInt32 → Except Fault Mem}

/-- The lines of visits. -/
def linesOf (line : UInt32 → PerfNode → List Printed) (visits : List (Path × PerfNode)) :
    List Printed :=
  visits.flatMap fun v => line (UInt32.ofNat v.1.length) v.2

theorem linesOf_append (visits visits' : List (Path × PerfNode)) :
    linesOf line (visits ++ visits') = linesOf line visits ++ linesOf line visits' :=
  List.flatMap_append

/-- A subtree the loop over the children has not come to is as it was. -/
theorem Swept.untouched {n : PerfNode} {done rest : List (Name × NodePtr)} {k : Name}
    {c : NodePtr} {m₁ : Mem} (ht : Tidy (childOf m) p) (hn : m.nodes.get p = some n)
    (hsplit : n.childNodes.toList = done ++ (k, c) :: rest)
    (hS : Swept F (fun q => ∃ e ∈ done, Reaches (childOf m) e.2 q) m m₁) {q : NodePtr}
    (hq : Reaches (childOf m) c q) :
    (¬ ∃ e ∈ done, Reaches (childOf m) e.2 q) ∧ m₁.nodes.get q = m.nodes.get q := by
  have hchild : ∀ e ∈ n.childNodes.toList, childOf m p e.1 = some e.2 := by
    intro e he
    rw [childOf, hn]
    exact mem_entries.mp he
  have hdis : ¬ ∃ e ∈ done, Reaches (childOf m) e.2 q := by
    rintro ⟨e, he, hq'⟩
    have hc := hchild (k, c) (by rw [hsplit]; simp)
    have hc' := hchild e (by rw [hsplit]; exact List.mem_append_left _ he)
    have hkey : k = e.1 := ht.sibling hc hc' hq hq'
    exact (entries_split hsplit).2 e.2 (by rw [hkey]; exact he)
  exact ⟨hdis, hS.outside hdis⟩

/-- **A recursion that sweeps a tree prints its visits**, as they were when it began. -/
theorem sweep_lines (hv : Visits F line visit) {fuel : Nat} {τ : Path} (ht : Tidy (childOf m) p)
    (hlive : ∀ q, Reaches (childOf m) p q → m.nodes.get q ≠ none)
    (hdepth : ∀ π q, walk (childOf m) p π = some q → π.length < fuel)
    (h : visit fuel m p (UInt32.ofNat τ.length) = .ok m') :
    m'.log = m.log ++ linesOf line (PerfNode.visits m.nodes fuel p τ) := by
  induction fuel generalizing m m' p τ with
  | zero => exact absurd (hdepth [] p rfl) (Nat.not_lt_zero _)
  | succ fuel ih =>
    obtain ⟨n, hn⟩ := Option.ne_none_iff_exists'.mp (hlive p .refl)
    obtain ⟨m₀, leave, hm₀, hline, hleave, hcall⟩ := hv.call fuel (UInt32.ofNat τ.length) hn
    have hlevel : UInt32.ofNat τ.length + 1 = UInt32.ofNat (τ.length + 1) := by
      rw [UInt32.ofNat_add]
      rfl
    rw [hcall, hlevel] at h
    obtain ⟨m₁, hm₁, hm'⟩ := bind_eq_ok.mp (by rw [map_eq_pure_bind] at h; exact h)
    obtain rfl := Except.ok.inj hm'
    -- the loop: what is still to come is as it was
    have hloop : ∀ (rest done : List (Name × NodePtr)) (m₂ : Mem),
        n.childNodes.toList = done ++ rest →
        Swept F (fun q => ∃ e ∈ done, Reaches (childOf m) e.2 q) m m₂ →
        rest.foldlM (fun m e => visit fuel m e.2 (UInt32.ofNat (τ.length + 1))) m₂ = .ok m₁ →
        m₁.log = m₂.log ++ linesOf line
          (rest.flatMap fun e => PerfNode.visits m.nodes fuel e.2 (e.1 :: τ)) := by
      intro rest
      induction rest with
      | nil =>
        intro done m₂ _ _ h₂
        obtain rfl := Except.ok.inj h₂
        exact (List.append_nil _).symm
      | cons e rest ihrest =>
        intro done m₂ hsplit hS h₂
        obtain ⟨k, c⟩ := e
        obtain ⟨m₃, hm₃, h₃⟩ := foldlM_cons_ok.mp h₂
        have hsame := fun q hq => (hS.untouched ht hn hsplit (q := q) hq).2
        have hedge : ∀ v, Reaches (childOf m) c v → ∀ j, childOf m₂ v j = childOf m v j :=
          fun v hv j => childOf_congr (hsame v hv) j
        have hreach := reaches_congr hedge
        have hpc : childOf m p k = some c := by
          rw [childOf, hn]
          exact (entries_split hsplit).1
        have ht₂ : Tidy (childOf m₂) c := (ht.sub (Reaches.refl.edge hpc)).congr hedge
        have hlive₂ : ∀ q, Reaches (childOf m₂) c q → m₂.nodes.get q ≠ none := by
          intro q hq
          rw [hsame q ((hreach q).mp hq)]
          exact hlive q ((Reaches.refl.edge hpc).trans ((hreach q).mp hq))
        have hdepth₂ : ∀ π q, walk (childOf m₂) c π = some q → π.length < fuel := by
          intro π q hq
          rw [walk_congr hedge] at hq
          have hlen := hdepth (π ++ [k]) q (walk_concat_eq_some.mpr ⟨c, hpc, hq⟩)
          rw [List.length_append, List.length_singleton] at hlen
          exact Nat.lt_of_succ_lt_succ hlen
        obtain ⟨m₄, hm₄, hS₂, -⟩ := sweep hv (UInt32.ofNat (τ.length + 1)) ht₂ hlive₂ hdepth₂
        obtain rfl := Except.ok.inj (hm₃.symm.trans hm₄)
        have hS₃ : Swept F (fun q => ∃ e ∈ done ++ [(k, c)], Reaches (childOf m) e.2 q) m m₃ := by
          refine (hS.union hS₂ fun q hq hq' => ?_).congr fun q => ?_
          · exact (hS.untouched ht hn hsplit ((hreach q).mp hq')).1 hq
          · simp [hreach, or_and_right, exists_or]
        have hlines := ih (τ := k :: τ) ht₂ hlive₂ hdepth₂ hm₃
        rw [PerfNode.visits_congr hsame] at hlines
        have hrest := ihrest (done ++ [(k, c)]) m₃ (by rw [hsplit]; simp) hS₃ h₃
        rw [hrest, hlines, List.flatMap_cons, linesOf_append, List.append_assoc]
    have hbelow := hloop _ [] m₀ rfl (hm₀.congr (by simp)) hm₁
    rw [(hleave m₁).2, hbelow, hline, PerfNode.visits, hn, Option.elim_some, List.append_assoc]
    rfl

end SweepLines

/-! ## A tree -/

theorem reportLine_data (b : Bool) (nLevel : UInt32) (n : PerfNode) :
    reportLine b nLevel n = [.ofNode b nLevel n.data] := by
  cases b <;> rfl

/-- Lines of nodes are read as they are. -/
theorem CallTree.Shown.map_seen {π : Path} {lines : List Printed} (h : ct.Shown b π lines) :
    lines.map Printed.seen = lines := by
  obtain ⟨paths, -, rfl⟩ := h
  refine (List.map_congr_left fun line hline => ?_).trans (List.map_id _)
  obtain ⟨τ, -, hτ⟩ := List.mem_filterMap.mp hline
  obtain ⟨d, -, rfl⟩ := Option.map_eq_some_iff.mp hτ
  cases b <;> rfl

section Trees

variable {π : Path}

/-- The visits from the node at `π` are what the call tree has there and below. -/
theorem Tracks.shown (hT : Tracks m t r ct) (hp : walk (childOf m) r π = some p) :
    ct.Shown b π (linesOf (reportLine b) (PerfNode.visits m.nodes (m.nodes.next + 1) p [])) := by
  have hnode : ∀ τ n, (τ, n) ∈ PerfNode.visits m.nodes (m.nodes.next + 1) p [] →
      ct.node (τ ++ π) = some n.data := by
    intro τ n hvisit
    obtain ⟨q, hq, hn⟩ := (hT.mem_visits hp).mp hvisit
    obtain ⟨n', hn', -, -, hdata⟩ := hT.live hq
    rw [hdata, Option.some.inj (hn.symm.trans hn')]
  refine ⟨_, ⟨fun τ => ?_, PerfNode.visits_sorted m.nodes (m.nodes.next + 1) p []⟩, ?_⟩
  · rw [List.mem_map]
    constructor
    · rintro ⟨⟨σ, n⟩, hvisit, rfl⟩
      rw [hnode σ n hvisit]
      simp
    · intro hne
      obtain ⟨q, hq⟩ : ∃ q, walk (childOf m) r (τ ++ π) = some q :=
        Option.ne_none_iff_exists'.mp fun hnone => hne (hT.absent hnone)
      obtain ⟨n, hn, -⟩ := hT.live hq
      exact ⟨(τ, n), (hT.mem_visits hp).mpr ⟨q, hq, hn⟩, rfl⟩
  · rw [List.filterMap_map, linesOf, List.filterMap_eq_flatMap_toList]
    refine List.flatMap_congr fun v hv => ?_
    rw [Function.comp_apply, hnode v.1 v.2 hv, reportLine_data]
    rfl

/-- **A report of a node shows its call tree from there on.** -/
theorem Tracks.reportData_shown (hT : Tracks m t r ct) (hp : walk (childOf m) r π = some p)
    (h : PerfNode.reportData m p 0 b = .ok m') :
    ∃ lines, ct.Shown b π lines ∧ m'.log = m.log ++ lines := by
  refine ⟨_, hT.shown hp, ?_⟩
  have hreach : Reaches (childOf m) r p := ⟨π, hp⟩
  apply sweep_lines (τ := []) (visits_reportData b) (hT.tidy.sub hreach)
  · exact fun q hq => hT.reached_live (hreach.trans hq)
  · exact fun π q hq => hT.length_lt hreach hq
  · exact h

/-- **A report of a tree** shows all of it. -/
theorem Tracks.reportData_reported (hT : Tracks m t r ct) {ms : UInt32}
    (h : PerfTree.reportData m t ms = .ok m') : ∃ lines, ct.Reported ms lines ∧
      m'.log.map Printed.seen = m.log.map Printed.seen ++ lines := by
  obtain ⟨stack, htree, -⟩ := hT.tree
  have hT₀ : Tracks (m.print (.tree t ct.idThread.toUInt32 ct.shownName ms)) t r ct :=
    hT.frame rfl fun _ _ => rfl
  rw [PerfTree.reportData, Mem.tree_eq_ok.mpr htree, ok_bind] at h
  simp only [CallTree.object] at h
  obtain ⟨m₁, hm₁, h⟩ := bind_eq_ok.mp h
  obtain rfl := Except.ok.inj h
  obtain ⟨below, hbelow, hlog⟩ := hT₀.reportData_shown (π := []) rfl hm₁
  refine ⟨_, ⟨below, hbelow, rfl⟩, ?_⟩
  show m₁.log.map Printed.seen = _
  rw [hlog, List.map_append, hbelow.map_seen]
  show (m.log ++ [_]).map Printed.seen ++ below = _
  rw [List.map_append, List.append_assoc]
  rfl

end Trees

/-! ## A process -/

/-- The clocks are marked as `mark` says. -/
def Clocked (m : Mem) (mark : LastMark) : Prop :=
  ∀ (pID : pid_t) (proc : PerfProcess), m.processMap[pID]? = some proc →
    proc.clock = .marked (mark pID)

namespace Clocked

variable {mark : LastMark} {f : PerfProcess → PerfProcess} {reading : Reading}

theorem of_processMap (h : Clocked m mark) (hmap : m'.processMap = m.processMap) :
    Clocked m' mark := by
  intro p proc hproc
  exact h p proc (hmap ▸ hproc)

theorem modifyProcess (h : Clocked m mark) (hf : ∀ proc, (f proc).clock = proc.clock) :
    Clocked (m.modifyProcess pID f) mark := by
  intro p proc hproc
  rw [Mem.modifyProcess_processMap, Std.ExtTreeMap.getElem?_modify] at hproc
  split at hproc
  · next hp =>
    obtain rfl := Std.LawfulEqCmp.eq_of_compare hp
    obtain ⟨proc₀, hproc₀, rfl⟩ := Option.map_eq_some_iff.mp hproc
    rw [hf]
    exact h _ proc₀ hproc₀
  · exact h p proc hproc

/-- A mark overwrites what the clock had. -/
theorem now_marker (c : PerfClock) (reading : Reading) :
    c.now .marker reading = .marked reading := by
  simp only [PerfClock.marked, PerfClock.now, PerfClock.setCPU, PerfClock.setWallClock]

/-- It does not matter what the clock had before. -/
theorem marker
    (h : ∀ p proc, p ≠ pID → m.processMap[p]? = some proc → proc.clock = .marked (mark p))
    (hf : ∀ proc, ∃ c : PerfClock, (f proc).clock = c.now .marker reading) :
    Clocked (m.modifyProcess pID f) (mark.set pID reading) := by
  intro p proc hproc
  rw [Mem.modifyProcess_processMap, Std.ExtTreeMap.getElem?_modify] at hproc
  by_cases hp : p = pID
  · subst hp
    rw [if_pos (by simp)] at hproc
    obtain ⟨proc₀, -, rfl⟩ := Option.map_eq_some_iff.mp hproc
    obtain ⟨c, hc⟩ := hf proc₀
    rw [LastMark.set, if_pos rfl, hc, now_marker]
  · rw [if_neg (by simpa using fun h => hp h.symm)] at hproc
    rw [LastMark.set, if_neg hp]
    exact h p proc hp hproc

end Clocked

/-- The threads of a process are those that have a tree. -/
theorem Rep.mem_threads (h : Rep m w) {proc : PerfProcess}
    (hproc : m.processMap[pID]? = some proc) :
    tID ∈ proc.mapThreads.toList.map Prod.fst ↔ w.tree pID tID ≠ none := by
  constructor
  · intro hs
    obtain ⟨e, he, rfl⟩ := List.mem_map.mp hs
    obtain ⟨r, ct, hA⟩ := h.entry hproc he
    rw [hA.spec]
    simp
  · exact h.mem_keys hproc

/-- **The loop over the thread map** shows its trees, one after the other. -/
theorem reportTrees_reported (h : Rep m w) {proc : PerfProcess}
    (hproc : m.processMap[pID]? = some proc) (ms : UInt32) {m₀ : Mem} (hE₀ : Evolve m w m₀ w) :
    ∃ m₁, proc.mapThreads.toList.foldlM
        (fun m entry => PerfTree.reportData m entry.2 ms) m₀ = .ok m₁ ∧
      m₁.processMap = m₀.processMap ∧
      ∃ blocks, List.Forall₂ (fun tID block => ∃ ct, w.tree pID tID = some ct ∧
          ct.Reported ms block) (proc.mapThreads.toList.map Prod.fst) blocks ∧
        m₁.log.map Printed.seen = m₀.log.map Printed.seen ++ blocks.flatten := by
  let f (ct : CallTree) : Option CallTree := some ct.report
  -- after `done`, those threads are reported
  let I (done : List (pthread_t × TreePtr)) (m₁ : Mem) : Prop :=
    Evolve m w m₁ (w.sweepOver pID f (done.map Prod.fst)) ∧ m₁.processMap = m₀.processMap ∧
    ∃ blocks, List.Forall₂ (fun tID block => ∃ ct, w.tree pID tID = some ct ∧
        ct.Reported ms block) (done.map Prod.fst) blocks ∧
      m₁.log.map Printed.seen = m₀.log.map Printed.seen ++ blocks.flatten
  suffices hloop : ∃ m₁, proc.mapThreads.toList.foldlM
      (fun m entry => PerfTree.reportData m entry.2 ms) m₀ = .ok m₁ ∧
      I proc.mapThreads.toList m₁ by
    obtain ⟨m₁, hm₁, -, hmap, hblocks⟩ := hloop
    exact ⟨m₁, hm₁, hmap, hblocks⟩
  refine foldlM_total (I := I) proc.mapThreads.toList ?_
    ⟨by simpa using hE₀, rfl, [], .nil, (List.append_nil _).symm⟩
  rintro done ⟨s, t⟩ rest m₁ hsplit ⟨hE, hmap, blocks, hblocks, hlog⟩
  obtain ⟨r, ct, hct, hA₁⟩ := h.next_entry hproc hsplit hE
  obtain ⟨m₂, hm₂, hS, -⟩ := reportData_spec hA₁.tracks ms
  obtain ⟨block, hblock, hlog₂⟩ := hA₁.tracks.reportData_reported hm₂
  refine ⟨m₂, hm₂, ?_, hS.processMap.trans hmap, blocks ++ [block], ?_, ?_⟩
  · rw [List.map_append, List.map_singleton, World.sweepOver_concat hct]
    refine hE.trans (hE.rep.step hA₁ hS rfl) fun {p q} hq _ => ?_
    rw [World.sweepOver_tree]
    split
    · obtain ⟨ct', hct'⟩ := Option.ne_none_iff_exists'.mp hq
      rw [hct']
      simp [f]
    · exact hq
  · rw [List.map_append]
    exact List.rel_append hblocks (.cons ⟨ct, hct, hblock⟩ .nil)
  · rw [hlog₂, hlog, List.flatten_concat, List.append_assoc]

/-- **A report of a process** shows its trees, with what its clock has counted since its mark. -/
theorem reportProcessData_reported (h : Rep m w) {mark : LastMark} (hclocks : Clocked m mark)
    {env : Env} (hrun : PerfProcess.reportData m pID env = .ok m') :
    ∃ tIDs lines, w.ProcessReported pID (mark pID) env.elapsed tIDs lines ∧
      m'.log.map Printed.seen = m.log.map Printed.seen ++ lines ∧
      Clocked m' (if tIDs = [] then mark else mark.set pID env.marker) := by
  obtain ⟨proc, hproc, hrun⟩ := bind_eq_ok.mp hrun
  rw [Mem.process_eq_ok] at hproc
  have hclock := hclocks pID proc hproc
  rw [h.idProcess hproc] at hrun
  let tIDs := proc.mapThreads.toList.map Prod.fst
  have hsorted : tIDs.Pairwise fun s t => compare s t = .lt :=
    List.pairwise_map.mpr (entries_sorted proc.mapThreads)
  have hsize : proc.mapThreads.size = tIDs.length := by
    rw [List.length_map, Std.ExtTreeMap.length_toList]
  by_cases hempty : proc.mapThreads.isEmpty = true
  · have hnil : tIDs = [] := by
      rw [← List.length_eq_zero_iff, ← hsize, Std.ExtTreeMap.isEmpty_iff.mp hempty]
      rfl
    rw [if_pos hempty] at hrun
    obtain rfl := Except.ok.inj hrun
    refine ⟨tIDs, _, ⟨hsorted, fun _ => h.mem_threads hproc, [], by rw [hnil]; exact .nil, rfl⟩,
      ?_, ?_⟩
    · rw [if_pos hnil, ← hsize]
      exact List.map_append
    · rw [if_pos hnil]
      exact hclocks
  · have hne : tIDs ≠ [] := by
      intro hnil
      refine hempty (Std.ExtTreeMap.isEmpty_iff.mpr ?_)
      rw [← Std.ExtTreeMap.toList_eq_nil_iff]
      exact List.map_eq_nil_iff.mp hnil
    rw [if_neg hempty] at hrun
    let clock := proc.clock.now .elapsed env.elapsed
    let m₀ := ((m.print (.process proc.mapThreads.size pID.toUInt32)).print
      (.cpu (clock.getUserCPU .millisecond) (clock.getSystemCPU .millisecond))).modifyProcess pID
        fun p => { p with clock := clock.now .marker env.marker }
    have hE₀ : Evolve m w m₀ w :=
      ((Evolve.print h _).trans (.print (Evolve.print h _).rep _) fun h _ => h).trans
        (.modifyProcess ((Evolve.print (Evolve.print h _).rep _).rep) (fun _ => rfl) fun _ => rfl)
        fun h _ => h
    obtain ⟨m₁, hm₁, hmap, blocks, hblocks, hlog⟩ :=
      reportTrees_reported h hproc (clock.getWallClock .millisecond).toUInt32 hE₀
    obtain rfl := Except.ok.inj (hrun.symm.trans hm₁)
    refine ⟨tIDs, _, ⟨hsorted, fun _ => h.mem_threads hproc, blocks, ?_, rfl⟩, ?_, ?_⟩
    · rw [← hclock]
      exact hblocks
    · rw [hlog, if_neg hne, ← hclock, ← hsize]
      show ((m.log ++ [_]) ++ [_]).map Printed.seen ++ _ = _
      rw [List.map_append, List.map_append, List.append_assoc, List.append_assoc]
      rfl
    · rw [if_neg hne]
      refine Clocked.of_processMap (m := m₀) ?_ hmap
      exact .marker (fun p proc' _ hproc' => hclocks p proc' hproc') fun _ => ⟨clock, rfl⟩

end RdkPerf

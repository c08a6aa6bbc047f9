import RdkPerf.Proof.InsideCalls
import RdkPerf.Proof.ThresholdReports

/-!
# What a threshold report shows below its first line

A threshold report walks every child its node has ever had and prints the last time it took. A
child keeps that figure from call to call of its parent, so below the first line stand calls that
were made in the reported one next to calls of long ago, and nothing tells them apart.

`FreshBelow` is what must have happened for the report to be about one call only.
-/

namespace RdkPerf

open Lib

/-! ## The lines -/

/-- The nodes a report visits, in its order, each with its path from the node it starts at. -/
def PerfNode.visits (nodes : Store PerfNode) :
    (fuel : Nat) → (this : NodePtr) → Path → List (Path × PerfNode)
  | 0, _, _ => []
  | fuel + 1, this, τ =>
    (nodes.get this).elim [] fun n =>
      (τ, n) :: n.childNodes.toList.flatMap fun entry => visits nodes fuel entry.2 (entry.1 :: τ)

/-- The line of a visit. -/
def deltaLine (visit : Path × PerfNode) : Printed :=
  .delta (UInt32.ofNat visit.1.length) visit.2.stats.elementName visit.2.stats.nLastDelta

section Lines

variable {m m' : Mem} {p q : NodePtr} {n : PerfNode} {fuel : Nat} {τ σ : Path} {nLevel : UInt32}

/-- **A report of deltas prints its visits**, and changes no node. -/
theorem PerfNode.reportDelta_lines
    (h : PerfNode.reportDataNested true fuel m p (UInt32.ofNat τ.length) = .ok m') :
    m'.nodes = m.nodes ∧ m'.log = m.log ++ (PerfNode.visits m.nodes fuel p τ).map deltaLine := by
  induction fuel generalizing m m' p τ with
  | zero => exact absurd h (by simp [PerfNode.reportDataNested])
  | succ fuel ih =>
    obtain ⟨n, hn, h⟩ := bind_eq_ok.mp h
    obtain ⟨m₁, hm₁, h⟩ := bind_eq_ok.mp h
    obtain rfl := Except.ok.inj h
    have hlevel : UInt32.ofNat τ.length + 1 = UInt32.ofNat (τ.length + 1) := by
      rw [UInt32.ofNat_add]
      rfl
    have hloop : ∀ (es : List (Name × NodePtr)) (m₂ : Mem), m₂.nodes = m.nodes →
        es.foldlM (fun m entry => PerfNode.reportDataNested true fuel m entry.2
          (UInt32.ofNat τ.length + 1)) m₂ = .ok m₁ →
        m₁.nodes = m.nodes ∧ m₁.log = m₂.log ++
          (es.flatMap fun entry => PerfNode.visits m.nodes fuel entry.2 (entry.1 :: τ)).map
            deltaLine := by
      intro es
      induction es with
      | nil =>
        intro m₂ hm₂ h₂
        obtain rfl := Except.ok.inj h₂
        exact ⟨hm₂, (List.append_nil _).symm⟩
      | cons e es ihes =>
        intro m₂ hm₂ h₂
        obtain ⟨m₃, hm₃, h₃⟩ := foldlM_cons_ok.mp h₂
        rw [hlevel] at hm₃
        obtain ⟨hnodes, hlog⟩ := ih (τ := e.1 :: τ) hm₃
        obtain ⟨hnodes', hlog'⟩ := ihes m₃ (hnodes.trans hm₂) h₃
        refine ⟨hnodes', ?_⟩
        rw [hlog', hlog, hm₂, List.flatMap_cons, List.map_append, List.append_assoc]
    obtain ⟨hnodes, hlog⟩ := hloop _ _ (Mem.print_nodes m _) hm₁
    refine ⟨hnodes, ?_⟩
    show m₁.log = _
    rw [hlog, PerfNode.visits, Mem.node_eq_ok.mp hn, Option.elim_some, List.map_cons,
      List.append_cons]
    rfl

/-- The nodes visited are those below, each at its path. -/
theorem PerfNode.mem_visits
    (hdepth : ∀ π q, walk (childOf m) p π = some q → π.length < fuel) :
    (σ, n) ∈ PerfNode.visits m.nodes fuel p τ ↔
      ∃ π q, σ = π ++ τ ∧ walk (childOf m) p π = some q ∧ m.nodes.get q = some n := by
  induction fuel generalizing p τ with
  | zero => exact absurd (hdepth [] p rfl) (Nat.not_lt_zero _)
  | succ fuel ih =>
    rw [PerfNode.visits]
    cases hn : m.nodes.get p with
    | none =>
      have hleaf : ∀ k, childOf m p k = none := by
        intro k
        rw [childOf, hn]
        rfl
      refine iff_of_false (List.not_mem_nil) ?_
      rintro ⟨π, q, -, hq, hnode⟩
      rcases List.eq_nil_or_concat' π with rfl | ⟨ρ, k, rfl⟩
      · obtain rfl := Option.some.inj hq
        exact absurd (hn.symm.trans hnode) (by simp)
      · obtain ⟨c, hc, -⟩ := walk_concat_eq_some.mp hq
        exact absurd ((hleaf k).symm.trans hc) (by simp)
    | some n₀ =>
      have hchild : ∀ e : Name × NodePtr, e ∈ n₀.childNodes.toList ↔
          childOf m p e.1 = some e.2 := by
        intro e
        rw [childOf, hn]
        exact mem_entries
      have hbelow : ∀ e : Name × NodePtr, childOf m p e.1 = some e.2 →
          ((σ, n) ∈ PerfNode.visits m.nodes fuel e.2 (e.1 :: τ) ↔ ∃ π q, σ = π ++ e.1 :: τ ∧
            walk (childOf m) e.2 π = some q ∧ m.nodes.get q = some n) := by
        intro e he
        refine ih fun π q hq => ?_
        have hlen := hdepth (π ++ [e.1]) q (walk_concat_eq_some.mpr ⟨e.2, he, hq⟩)
        rw [List.length_append, List.length_singleton] at hlen
        exact Nat.lt_of_succ_lt_succ hlen
      rw [Option.elim_some, List.mem_cons, List.mem_flatMap]
      constructor
      · rintro (heq | ⟨e, he, hvisit⟩)
        · obtain ⟨rfl, rfl⟩ := Prod.mk.inj heq
          exact ⟨[], p, rfl, rfl, hn⟩
        · obtain ⟨π, q, rfl, hq, hnode⟩ := (hbelow e ((hchild e).mp he)).mp hvisit
          exact ⟨π ++ [e.1], q, by simp,
            walk_concat_eq_some.mpr ⟨e.2, (hchild e).mp he, hq⟩, hnode⟩
      · rintro ⟨π, q, rfl, hq, hnode⟩
        rcases List.eq_nil_or_concat' π with rfl | ⟨ρ, k, rfl⟩
        · obtain rfl := Option.some.inj hq
          obtain rfl := Option.some.inj (hn.symm.trans hnode)
          exact Or.inl rfl
        · obtain ⟨c, hc, hq⟩ := walk_concat_eq_some.mp hq
          exact Or.inr ⟨(k, c), (hchild (k, c)).mpr hc,
            (hbelow (k, c) hc).mpr ⟨ρ, q, by simp, hq, hnode⟩⟩

end Lines

/-! ## What must have happened -/

/-- Every call ever made below the path `α` was made again inside the last call of its parent; or
    that parent is below `α` too, the call was made in an earlier call of it since `α` was
    entered, and took no longer than the parent's last. -/
def FreshBelow (α : Path) (ms : List (Mark Name UInt64)) : Prop :=
  ∀ k σ, α <:+ σ → .enter (k :: σ) ∈ ms →
    (∃ d, .leave (k :: σ) d ∈ Marks.since σ ms) ∨
      (σ ≠ α ∧ (∃ d, .leave (k :: σ) d ∈ Marks.since α ms) ∧
        ∀ v v', Marks.last (k :: σ) ms = some v → Marks.last σ ms = some v' → v ≤ v')

namespace ThreadLog

/-- What a node shows of the calls at its path. -/
def lastAt (l : ThreadLog) (σ : Path) : UInt64 := (Marks.last σ l.marks).getD 0

variable {l : ThreadLog} {ts : UInt64} {f : Frame Started} {fs : List (Frame Started)}

theorem not_suffix_active {k : Name} {σ : Path} (hσ : l.active <:+ σ) :
    ¬ (k :: σ) <:+ l.active := by
  intro h
  have hle := h.length_le
  have hlen := hσ.length_le
  rw [List.length_cons] at hle
  exact absurd (Nat.le_trans hle hlen) (Nat.not_succ_le_self _)

/-- A call shown inside. -/
theorem leave_lastAt {π σ : Path} {d : UInt64} (h : .leave σ d ∈ Marks.since π l.marks) :
    .leave σ (l.lastAt σ) ∈ Marks.since π l.marks := by
  obtain ⟨v, hv, hmem⟩ := Marks.last_of_leave h
  rw [lastAt, hv]
  exact hmem

/-- **Fresh is what the figures need to be of one call only**: each is of a call inside it, and no
    more than the figure above it. -/
theorem InTime.freshBelow_iff (hl : l.InTime ts) (hfs : l.frames = f :: fs) :
    FreshBelow l.active l.marks ↔ ∀ k σ, l.active <:+ σ → .enter (k :: σ) ∈ l.marks →
      .leave (k :: σ) (l.lastAt (k :: σ)) ∈ Marks.since l.active l.marks ∧
        l.lastAt (k :: σ) ≤ if σ = l.active then ts - f.item.startTime else l.lastAt σ := by
  have hitems : Frames.items l.frames = f.item :: Frames.items fs := by
    rw [hfs]
    rfl
  have hactive : l.active = pathOf (f.item :: Frames.items fs) := congrArg pathOf hitems
  have hne : l.active ≠ [] := by
    rw [hactive]
    simp [pathOf]
  have hentered : .enter l.active ∈ l.marks :=
    hl.nested.entered_open (hl.opened ▸ List.suffix_rfl) hne
  constructor
  · intro hfresh
    -- from the top down, as a call inside a call inside is inside
    have hinside : ∀ k σ, l.active <:+ σ → .enter (k :: σ) ∈ l.marks →
        .leave (k :: σ) (l.lastAt (k :: σ)) ∈ Marks.since l.active l.marks := by
      intro k σ
      induction σ generalizing k with
      | nil => exact fun hσ => absurd (List.suffix_nil.mp hσ) hne
      | cons j ρ ih =>
        intro hσ henter
        rcases hfresh k (j :: ρ) hσ henter with ⟨d, hd⟩ | ⟨-, ⟨d, hd⟩, -⟩
        · by_cases htop : j :: ρ = l.active
          · rw [htop] at hd ⊢
            exact leave_lastAt hd
          · have hρ := (List.suffix_cons_iff.mp hσ).resolve_left fun heq => htop heq.symm
            have hparent := ih j hρ (hl.nested.entered_above henter (by simp))
            have hin := hl.nested.entered_inside hentered (not_suffix_active hρ) hparent
            exact leave_lastAt (Marks.since_subset hin hd)
        · exact leave_lastAt hd
    intro k σ hσ henter
    have hin := hinside k σ hσ henter
    refine ⟨hin, ?_⟩
    by_cases htop : σ = l.active
    · rw [if_pos htop]
      have htime := hl.inside f.item (Frames.items fs) (hitems ▸ List.suffix_rfl) _ _
        (hactive ▸ hin)
      have hstart := hl.begun f.item (hitems ▸ List.mem_cons_self)
      rw [UInt64.le_iff_toNat_le, UInt64.toNat_sub_of_le _ _ hstart]
      omega
    · rw [if_neg htop]
      obtain ⟨j, ρ, rfl⟩ := List.exists_cons_of_ne_nil fun hnil : σ = [] =>
        hne (List.suffix_nil.mp (hnil ▸ hσ))
      have hρ := (List.suffix_cons_iff.mp hσ).resolve_left fun heq => htop heq.symm
      have hparent := hl.nested.entered_above henter (List.cons_ne_nil j ρ)
      rcases hfresh k (j :: ρ) hσ henter with ⟨d, hd⟩ | ⟨-, -, hle⟩
      · have hclosed : ¬ (j :: ρ) <:+ Marks.openAfter l.marks := hl.opened ▸ not_suffix_active hρ
        obtain ⟨v, hv, hle⟩ := hl.nested.last_le (List.cons_ne_nil j ρ) hparent hclosed
          (List.suffix_cons k _) (leave_lastAt hd)
        rw [show l.lastAt (j :: ρ) = v by rw [lastAt, hv]; rfl]
        exact hle (by simp)
      · obtain ⟨v, hv, -⟩ := Marks.last_of_leave hin
        obtain ⟨v', hv', -⟩ := Marks.last_of_leave (hinside j ρ hρ hparent)
        rw [lastAt, lastAt, hv, hv']
        exact hle v v' hv hv'
  · intro hshown k σ hσ henter
    obtain ⟨hin, hle⟩ := hshown k σ hσ henter
    by_cases htop : σ = l.active
    · refine Or.inl ⟨l.lastAt (k :: σ), ?_⟩
      rw [htop] at hin ⊢
      exact hin
    · refine Or.inr ⟨htop, ⟨_, hin⟩, fun v v' hv hv' => ?_⟩
      rw [if_neg htop, lastAt, lastAt, hv, hv'] at hle
      exact hle

end ThreadLog

/-! ## The report -/

/-- The lines below the first show calls made inside the reported one, each no longer than the
    call on the line of the node above it. `l` is the log of the thread when the call ends. -/
structure ShowsOnlyCall (l : ThreadLog) (visits : List (Path × PerfNode)) : Prop where
  inside : ∀ τ node, (τ, node) ∈ visits → τ ≠ [] →
    .leave (τ ++ l.active) node.stats.nLastDelta ∈ Marks.since l.active l.marks
  atMostParent : ∀ k τ node parent, (k :: τ, node) ∈ visits → (τ, parent) ∈ visits →
    node.stats.nLastDelta ≤ parent.stats.nLastDelta

/-- The visits are at the active path, which took `elapsed`, and below it wherever a call was ever
    made; there the last one is shown. -/
structure ShowsLast (l : ThreadLog) (elapsed : UInt64) (visits : List (Path × PerfNode)) :
    Prop where
  visited : ∀ τ, (∃ node, (τ, node) ∈ visits) ↔ τ = [] ∨ .enter (τ ++ l.active) ∈ l.marks
  shown : ∀ τ node, (τ, node) ∈ visits →
    node.stats.nLastDelta = if τ = [] then elapsed else l.lastAt (τ ++ l.active)

section Report

variable {m m' : Mem} {t : TreePtr} {r p : NodePtr} {l : ThreadLog} {ct : CallTree} {h : Handle}
  {ts : UInt64} {f : Frame Started} {fs : List (Frame Started)} {visits : List (Path × PerfNode)}

/-- The nodes a report visits, from the root. -/
theorem Tracks.mem_visits (hT : Tracks m t r ct) {π τ : Path} {node : PerfNode}
    (hp : walk (childOf m) r π = some p) :
    (τ, node) ∈ PerfNode.visits m.nodes (m.nodes.next + 1) p [] ↔
      ∃ q, walk (childOf m) r (τ ++ π) = some q ∧ m.nodes.get q = some node := by
  rw [PerfNode.mem_visits fun σ q hq => hT.length_lt ⟨_, hp⟩ hq, walk_append, hp, Option.bind_some]
  constructor
  · rintro ⟨σ, q, rfl, hq, hnode⟩
    exact ⟨q, by rw [List.append_nil]; exact hq, hnode⟩
  · rintro ⟨q, hq, hnode⟩
    exact ⟨τ, q, (List.append_nil τ).symm, hq, hnode⟩

/-- **A report of the call that `h` ends shows the last call everywhere.** -/
theorem Tracks.showsLast (hT : Tracks m t r (l.stop h ts).callTree) (hfs : l.frames = f :: fs)
    (ht : Frames.trail h l.frames = some (Frames.items l.frames))
    (hp : walk (childOf m) r l.active = some p) :
    ShowsLast l (ts - f.item.startTime)
      (PerfNode.visits m.nodes (m.nodes.next + 1) p []) := by
  have hitems : Frames.items l.frames = f.item :: Frames.items fs := by
    rw [hfs]
    rfl
  have hne : ∀ τ, τ ++ l.active ≠ [] := by
    intro τ hnil
    have hactive : pathOf (Frames.items l.frames) = [] := (List.append_eq_nil_iff.mp hnil).2
    rw [hitems] at hactive
    exact absurd hactive (by simp [pathOf])
  have hmarks : (l.stop h ts).marks = .leave l.active (ts - f.item.startTime) :: l.marks := by
    rw [ThreadLog.marks_stop ht, hitems]
    rfl
  have hentered : ∀ σ, .enter σ ∈ (l.stop h ts).events ↔ .enter σ ∈ l.marks := by
    intro σ
    rw [← ThreadLog.enter_mem_marks, hmarks, List.mem_cons]
    exact or_iff_right (by simp)
  constructor
  case visited =>
    intro τ
    simp only [hT.mem_visits hp]
    constructor
    · rintro ⟨node, q, hq, -⟩
      obtain ⟨_, -, -, -, hdata⟩ := hT.live hq
      rw [ThreadLog.callTree_node] at hdata
      split at hdata
      · next hkey => exact Or.inr ((hentered _).mp (hkey.resolve_left (hne τ)))
      · exact absurd hdata (by simp)
    · intro hkey
      obtain ⟨q, hq⟩ : ∃ q, walk (childOf m) r (τ ++ l.active) = some q := by
        rcases hkey with rfl | henter
        · exact ⟨p, hp⟩
        · rw [← Option.ne_none_iff_exists']
          intro hnone
          have habsent := hT.absent hnone
          rw [ThreadLog.callTree_node, if_pos (Or.inr ((hentered _).mpr henter))] at habsent
          exact absurd habsent (by simp)
      obtain ⟨node, hnode, -⟩ := hT.live hq
      exact ⟨node, q, hq, hnode⟩
  case shown =>
    intro τ node hvisit
    obtain ⟨q, hq, hnode⟩ := (hT.mem_visits hp).mp hvisit
    rw [hT.stats_eq hq hnode, ThreadLog.nLastDelta_statsAt (hne τ)]
    show (Marks.last (τ ++ l.active) (l.stop h ts).marks).getD 0 = _
    rw [hmarks, Marks.last]
    by_cases hτ : τ = []
    · subst hτ
      rw [if_pos (List.nil_append _).symm, if_pos rfl]
      rfl
    · rw [if_neg hτ, if_neg fun heq => hτ (List.self_eq_append_left.mp heq)]
      rfl

/-- What shows the last call everywhere shows the reported one only if all is fresh below it. -/
theorem ShowsLast.showsOnlyCall_iff (hin : l.InTime ts) (hfs : l.frames = f :: fs)
    (hlast : ShowsLast l (ts - f.item.startTime) visits) :
    ShowsOnlyCall l visits ↔ FreshBelow l.active l.marks := by
  rw [hin.freshBelow_iff hfs]
  constructor
  · rintro ⟨hinside, hparent⟩ k σ ⟨τ, rfl⟩ henter
    -- both are visited
    obtain ⟨node, hvisit⟩ := (hlast.visited (k :: τ)).mpr (Or.inr henter)
    have hup : τ = [] ∨ .enter (τ ++ l.active) ∈ l.marks := by
      by_cases hτ : τ = []
      · exact Or.inl hτ
      · refine Or.inr (hin.nested.entered_above henter ?_)
        exact fun hnil => hτ (List.append_eq_nil_iff.mp hnil).1
    obtain ⟨parent, hup⟩ := (hlast.visited τ).mpr hup
    have hdelta := hlast.shown _ node hvisit
    rw [if_neg (List.cons_ne_nil k τ)] at hdelta
    have hmem := hinside _ node hvisit (List.cons_ne_nil k τ)
    have hle := hparent k τ node parent hvisit hup
    rw [hdelta] at hmem hle
    rw [hlast.shown τ parent hup] at hle
    refine ⟨hmem, ?_⟩
    simp only [List.append_left_eq_self]
    exact hle
  · intro hfresh
    constructor
    case inside =>
      intro τ node hvisit hτ
      obtain ⟨k, τ, rfl⟩ := List.exists_cons_of_ne_nil hτ
      have henter := ((hlast.visited _).mp ⟨node, hvisit⟩).resolve_left hτ
      rw [hlast.shown _ node hvisit, if_neg hτ]
      exact (hfresh k (τ ++ l.active) (List.suffix_append _ _) henter).1
    case atMostParent =>
      intro k τ node parent hvisit hup
      have hne := List.cons_ne_nil k τ
      have henter := ((hlast.visited _).mp ⟨node, hvisit⟩).resolve_left hne
      have hle := (hfresh k (τ ++ l.active) (List.suffix_append _ _) henter).2
      simp only [List.append_left_eq_self] at hle
      rw [hlast.shown _ node hvisit, if_neg hne, hlast.shown τ parent hup]
      exact hle

/-- The destructor of a record whose call took too long reports its node. -/
theorem PerfRecord.destruct_reports {this : PerfRecord} {env : Env}
    (hrun : this.destruct m env = .ok m') (hnode : this.nodeInTree = some p)
    (hex : this.exceeded (env.timeStamp - this.startTime) = true) :
    ∃ line, m'.log = m.log ++
      line :: (PerfNode.visits m'.nodes (m'.nodes.next + 1) p []).map deltaLine := by
  simp only [PerfRecord.destruct, hnode, hex, if_true] at hrun
  obtain ⟨m₁, hinc, hrun⟩ := bind_eq_ok.mp hrun
  obtain ⟨m₂, hclose, hrun⟩ := bind_eq_ok.mp hrun
  obtain ⟨node, -, hrun⟩ := bind_eq_ok.mp hrun
  have hlog := ((PerfNode.incrementData_treesOnly hinc).trans
    (PerfNode.closeNode_treesOnly hclose)).log
  obtain ⟨hnodes, hlines⟩ := PerfNode.reportDelta_lines (τ := []) hrun
  refine ⟨.threshold this.elementName this.thresholdInUS (env.timeStamp - this.startTime)
    node.stats, ?_⟩
  rw [hlines, hnodes, ← hlog, List.append_cons]
  rfl

/-- What a stop leaves of the tree its record is in. -/
theorem InProc.stop_tracks {pID : pid_t} {s s' : InProc} {L : Ledger} {tID : pthread_t}
    {calls : List Started} {caller : Caller} {env : Env} (hS : Sim pID s L)
    (hl : L.thread tID = some l) (ht : Frames.trail h l.frames = some calls)
    (hstep : s.step (.stop caller h env) = .ok s') : ∃ record p t r,
      s.records.get h = some record ∧ record.nodeInTree = some p ∧
      record.destruct s.mem env = .ok s'.mem ∧
      Tracks s'.mem t r (l.stop h env.timeStamp).callTree ∧
      walk (childOf s'.mem) r (pathOf calls) = some p := by
  obtain ⟨record, p, hH⟩ := hS.attached ⟨l, hl, ht⟩
  have hct : (L.world s.pID).tree s.pID tID = some l.callTree := by
    rw [Ledger.world_tree_self, hl]
    rfl
  obtain ⟨m₁, hdestruct, hE⟩ := destruct_spec hS.rep hH.nodeIs hH.node hct env
  simp only [InProc.step, InProc.destruct, hH.get, hdestruct, ok_bind] at hstep
  obtain rfl := Except.ok.inj hstep
  have htree : ((L.world s.pID).set s.pID tID (some (l.callTree.stop (pathOf calls)
      (env.timeStamp - record.startTime)))).tree s.pID tID =
        some (l.stop h env.timeStamp).callTree := by
    rw [World.set_tree, if_pos ⟨rfl, rfl⟩, hH.startTime, ThreadLog.callTree_stop ht]
  obtain ⟨t, r, ct, hA, hp⟩ := hH.nodeIs.evolve hE (by rw [htree]; simp)
  obtain rfl := Option.some.inj (hA.spec.symm.trans htree)
  exact ⟨record, p, t, r, hH.get, hH.node, hdestruct, hA.tracks, hp⟩

end Report

/-- **A threshold report is about the reported call only** exactly when everything ever called
    below it is fresh. -/
theorem threshold_report_iff (pID : pid_t) (pre : List Op) (s s' : InProc) (caller : Caller)
    (h : Handle) (env : Env) (hn : WellNested (pre ++ [.stop caller h env]))
    (hclocks : ClocksAdvance (pre ++ [.stop caller h env])) (hs : InProc.run pID pre = .ok s)
    (hstep : s.step (.stop caller h env) = .ok s') (hprints : PrintsThreshold s.mem s'.mem) :
    ∃ l p line, (Ledger.run pID pre).thread caller.tid = some l ∧
      (s.records.get h).bind (·.nodeInTree) = some p ∧
      s'.mem.log = s.mem.log ++
        line :: (PerfNode.visits s'.mem.nodes (s'.mem.nodes.next + 1) p []).map deltaLine ∧
      (ShowsOnlyCall l (PerfNode.visits s'.mem.nodes (s'.mem.nodes.next + 1) p []) ↔
        FreshBelow l.active l.marks) := by
  have hr : (Op.stop caller h env).reading = some (caller.tid, env.timeStamp) := rfl
  have hS := InProc.run_sim hs
  -- the record's frame is on top
  obtain ⟨n, hn⟩ := hn
  obtain ⟨n₀, hn₀, hnstep⟩ := Nesting.run_concat.mp hn
  obtain ⟨rest, hh, -⟩ := Nesting.step_stop hnstep
  obtain ⟨tID', calls, ho⟩ := hS.step_legal hstep
  obtain ⟨l, f, fs, hl, hfs, ht, -, -⟩ := (run_tops hn₀ hs).stop_top hh ho
  have hin := (run_inTime ⟨n₀, hn₀⟩ hclocks.left hs hl).later (hclocks.last_le hr)
  obtain ⟨record, p, t, r, hrec, hnode, hdestruct, hT, hp⟩ := InProc.stop_tracks hS hl ht hstep
  obtain ⟨line, hlog⟩ : ∃ line, s'.mem.log = s.mem.log ++
      line :: (PerfNode.visits s'.mem.nodes (s'.mem.nodes.next + 1) p []).map deltaLine := by
    rcases PerfRecord.destruct_log hdestruct with ⟨hex, -⟩ | ⟨-, hsame⟩
    · exact PerfRecord.destruct_reports hdestruct hnode hex
    · exact absurd hprints (not_printsThreshold hsame)
  refine ⟨l, p, line, hl, by rw [hrec]; exact hnode, hlog, ?_⟩
  exact (hT.showsLast hfs ht hp).showsOnlyCall_iff hin hfs

/-- `f` is called for ten microseconds, and `g` inside it for two. -/
def callInside : List Op :=
  [.start threadA nameF (some 5) {}, .start threadA nameG none { timeStamp := 1 },
    .stop threadA 1 { timeStamp := 3 }]

theorem callInside_shown : ∃ s s' l p, InProc.run 42 callInside = .ok s ∧
    s.step (.stop threadA 0 { timeStamp := 10 }) = .ok s' ∧
    (Ledger.run 42 callInside).thread threadA.tid = some l ∧
    (s.records.get 0).bind (·.nodeInTree) = some p ∧
    ShowsOnlyCall l (PerfNode.visits s'.mem.nodes (s'.mem.nodes.next + 1) p []) := by
  obtain ⟨s, hs, hread⟩ := ok_of_toOption_bind (show (InProc.run 42 callInside).toOption.bind
    (fun s => (s.step (.stop threadA 0 { timeStamp := 10 })).toOption.bind fun s' =>
      some s.pID) = some 42 by decide)
  obtain ⟨s', hs', -⟩ := ok_of_toOption_bind hread
  have hexceeds : Exceeds callInside 0 { timeStamp := 10 } :=
    ⟨0, some 5, 5, rfl, rfl, by decide, by decide⟩
  have hclocks : ClocksAdvance (callInside ++ [.stop threadA 0 { timeStamp := 10 }]) :=
    clocksAdvance_of_thread 1 (by simp [callInside, Op.reading, threadA]) (by decide)
  obtain ⟨l, p, _, hl, hp, -, hiff⟩ := threshold_report_iff 42 callInside s s' threadA 0
    { timeStamp := 10 } ⟨_, rfl⟩ hclocks hs hs' ((printsThreshold_iff hs hs').mpr hexceeds)
  refine ⟨s, s', l, p, hs, hs', hl, hp, hiff.mpr ?_⟩
  obtain rfl := Option.some.inj hl
  intro k σ hσ henter
  -- nothing else was called below `f`
  have hmarks : .enter (k :: σ) ∈ ([.leave [[103], [102]] 2, .enter [[103], [102]],
      .enter [[102]]] : List (Mark Name UInt64)) := henter
  rcases List.mem_cons.mp hmarks with heq | hmarks
  · exact absurd heq (by simp)
  · rcases List.mem_cons.mp hmarks with heq | hmarks
    · obtain ⟨rfl, rfl⟩ := List.cons.inj (Mark.enter.inj heq)
      exact Or.inl ⟨2, by decide⟩
    · obtain ⟨rfl, rfl⟩ := List.cons.inj (Mark.enter.inj (List.mem_singleton.mp hmarks))
      exact absurd hσ (by decide)

/-- `g` was called for fifty microseconds in a call of `f` before the one that is reported. -/
def callBefore : List Op :=
  [.start threadA nameF none {}, .start threadA nameG none {},
    .stop threadA 1 { timeStamp := 50 }, .stop threadA 0 { timeStamp := 50 },
    .start threadA nameF (some 5) { timeStamp := 60 }]

/-- The report of ten microseconds of `f` shows fifty of `g`. -/
theorem callBefore_shown : ¬ ∀ (pID : pid_t) (pre : List Op) (s s' : InProc) (caller : Caller)
    (h : Handle) (env : Env), WellNested (pre ++ [.stop caller h env]) →
      ClocksAdvance (pre ++ [.stop caller h env]) → InProc.run pID pre = .ok s →
      s.step (.stop caller h env) = .ok s' → PrintsThreshold s.mem s'.mem →
        ∀ l p, (Ledger.run pID pre).thread caller.tid = some l →
          (s.records.get h).bind (·.nodeInTree) = some p →
            ShowsOnlyCall l (PerfNode.visits s'.mem.nodes (s'.mem.nodes.next + 1) p []) := by
  intro hall
  obtain ⟨s, hs, hread⟩ := ok_of_toOption_bind (show (InProc.run 42 callBefore).toOption.bind
    (fun s => (s.step (.stop threadA 2 { timeStamp := 70 })).toOption.bind fun s' =>
      ((s.records.get 2).bind (·.nodeInTree)).map fun p =>
        (PerfNode.visits s'.mem.nodes (s'.mem.nodes.next + 1) p []).map fun visit =>
          (visit.1, visit.2.stats.nLastDelta)) =
      some [([], 10), ([[103]], 50)] by decide)
  obtain ⟨s', hs', hread⟩ := ok_of_toOption_bind hread
  obtain ⟨p, hp, hread⟩ := Option.map_eq_some_iff.mp hread
  have hexceeds : Exceeds callBefore 2 { timeStamp := 70 } :=
    ⟨60, some 5, 5, rfl, rfl, by decide, by decide⟩
  have hclocks : ClocksAdvance (callBefore ++ [.stop threadA 2 { timeStamp := 70 }]) :=
    clocksAdvance_of_thread 1 (by simp [callBefore, Op.reading, threadA]) (by decide)
  have hshows := hall 42 callBefore s s' threadA 2 { timeStamp := 70 } ⟨_, rfl⟩ hclocks hs hs'
    ((printsThreshold_iff hs hs').mpr hexceeds) _ p rfl hp
  obtain ⟨⟨_, parent⟩, hup, hf⟩ := List.mem_map.mp (hread ▸ List.mem_cons_self)
  obtain ⟨⟨_, child⟩, hvisit, hg⟩ :=
    List.mem_map.mp (hread ▸ List.mem_cons_of_mem _ (List.mem_singleton_self _))
  obtain ⟨rfl, hten⟩ := Prod.mk.inj hf
  obtain ⟨rfl, hfifty⟩ := Prod.mk.inj hg
  have hle := hshows.atMostParent [103] [] child parent hvisit hup
  rw [hten, hfifty] at hle
  exact absurd hle (by decide)

end RdkPerf

import RdkPerf.Proof.OpenRecords

/-!
# Removal at a report

`CloseInactiveThreads` looks at two counters and the top of the stack. As long as no counter
wrapped, that removes the trees nothing was added to since they were last reported and that have
nothing open, and no other (`closeInactiveThreads_exact`); a tree some record still refers to has
something open, so it stays.

What it does not look at is the statistics. A call that was open at the last report and ended
after it is in the interval figures, and in no report, when the tree goes: that is the one way a
measured call is lost (`reported_iff_nothing_open`).
-/

namespace RdkPerf

open Lib

variable {pID : pid_t} {ops : List Op} {s : InProc} {tID : pthread_t}

theorem World.closeInactive_tree (w : World) (pID p : pid_t) (u : pthread_t) :
    (w.closeInactive pID).tree p u = if p = pID then
      (w.tree p u).bind fun ct => if ct.inactive then none else some ct else w.tree p u := rfl

/-- Without explicit removals every open record has its call. -/
theorem InProc.allOpen (hops : ∀ op ∈ ops, op.isClose = false) (hs : InProc.run pID ops = .ok s) :
    AllOpen (Ledger.run pID ops) := by
  induction ops using List.reverseRecOn generalizing s with
  | nil => exact fun h hh => absurd hh (by simp [Ledger.run, Ledger.init])
  | append_singleton ops op ih =>
    obtain ⟨s₁, hs₁, -⟩ := foldlM_concat_ok.mp hs
    have hA := ih (fun op' hmem => hops op' (List.mem_append_left _ hmem)) hs₁
    have hop := hops op (by simp)
    rw [Ledger.run_concat]
    refine hA.step (InProc.run_sim hs₁) ?_
    cases op with
    | closeThread caller u => exact absurd hop (by simp [Op.isClose])
    | closeProcess caller p => exact absurd hop (by simp [Op.isClose])
    | start caller szName nThresholdInUS env => trivial
    | stop caller h env => trivial
    | setThreshold caller h nThresholdInUS => trivial
    | reportProcess caller p env => trivial
    | reportThread caller u => trivial

/-- What `CloseInactiveThreads` leaves of a state, with what it answers. -/
structure RemovesUnused (s : InProc) (L : Ledger) (m' : Mem) (retVal : Bool) : Prop where
  /-- The entries removed are those of the trees without an `AddNode` since their last report, or
      their creation, whose stack top is the root. -/
  removed : ∀ {tID t}, s.mem.treePtr s.pID tID = some t → ∃ l tr, L.thread tID = some l ∧
    s.mem.trees.get t = some tr ∧ (m'.treePtr s.pID tID = none ↔
      (∀ π, .enter π ∉ sinceReport l.events) ∧ tr.activeNode.head? = tr.rootNode)
  kept : ∀ p tID, (p = s.pID ∧ m'.treePtr p tID = none) ∨
    (m'.treePtr p tID = s.mem.treePtr p tID ∧ m'.view p tID = s.mem.view p tID)
  answer : retVal = true ↔ ∃ tID, s.mem.treePtr s.pID tID ≠ none ∧ m'.treePtr s.pID tID = none
  inUse : ∀ {h record}, s.records.get h = some record → m'.treePtr s.pID record.idThread ≠ none ∧
    ∃ p, record.nodeInTree = some p ∧ m'.nodes.get p ≠ none

section Closed

variable {m m' : Mem} {w : World}

/-- The top of the stack is the root exactly when nothing is open. -/
theorem At.top_eq_root_iff {t : TreePtr} {r : NodePtr} {ct : CallTree}
    (hA : At m w pID tID t r ct) : ∃ tr, m.trees.get t = some tr ∧
      (tr.activeNode.head? = tr.rootNode ↔ ct.active = []) := by
  obtain ⟨pTop, rest, htree, htop⟩ := hA.tracks.top
  refine ⟨_, htree, ?_⟩
  show some pTop = some r ↔ _
  rw [Option.some.injEq]
  exact hA.tracks.path_eq_iff htop walk_nil

/-- A tree goes exactly if it is inactive. -/
theorem Evolve.closed_iff (hE : Evolve m w m' (w.closeInactive pID)) {ct : CallTree}
    (hct : w.tree pID tID = some ct) : m'.treePtr pID tID = none ↔ ct.inactive = true := by
  rw [hE.rep.treePtr_none_iff, World.closeInactive_tree, if_pos rfl, hct, Option.bind_some]
  split
  · next hin => exact iff_of_true rfl hin
  · next hin => exact iff_of_false (by simp) hin

/-- What does not go stays as it was, pointer and all. -/
theorem Evolve.closed_or_kept (hrep : Rep m w) (hE : Evolve m w m' (w.closeInactive pID)) (p : pid_t)
    (tID : pthread_t) : (p = pID ∧ m'.treePtr p tID = none) ∨
      (m'.treePtr p tID = m.treePtr p tID ∧ m'.view p tID = m.view p tID) := by
  cases ht : w.tree p tID with
  | none =>
    have hnone' : (w.closeInactive pID).tree p tID = none := by
      rw [World.closeInactive_tree, ht]
      split <;> rfl
    refine Or.inr ⟨?_, ?_⟩
    · rw [hE.rep.treePtr_none_iff.mpr hnone', hrep.treePtr_none_iff.mpr ht]
    · rw [hE.rep.view, hrep.view, ht, hnone']
  | some ct =>
    obtain ⟨t, r, hA⟩ := hrep.at_of_tree ht
    cases ht' : (w.closeInactive pID).tree p tID with
    | none =>
      refine Or.inl ⟨?_, hE.rep.treePtr_none_iff.mpr ht'⟩
      refine Classical.byContradiction fun hp => ?_
      rw [World.closeInactive_tree, if_neg hp, ht] at ht'
      exact absurd ht' (by simp)
    | some ct' =>
      have hsame : ct' = ct := by
        rw [World.closeInactive_tree, ht] at ht'
        split at ht'
        · rw [Option.bind_some] at ht'
          split at ht'
          · exact absurd ht' (by simp)
          · exact (Option.some.inj ht').symm
        · exact (Option.some.inj ht').symm
      obtain ⟨hA', -⟩ := hE.stays hA ht'
      refine Or.inr ⟨hA'.ptr.trans hA.ptr.symm, ?_⟩
      rw [hE.rep.view, hrep.view, ht, ht', hsame]

/-- Some tree is inactive exactly if some tree goes. -/
theorem Evolve.some_closed_iff (hrep : Rep m w) (hE : Evolve m w m' (w.closeInactive pID)) :
    (∃ tID ct, w.tree pID tID = some ct ∧ ct.inactive = true) ↔
      ∃ tID, m.treePtr pID tID ≠ none ∧ m'.treePtr pID tID = none := by
  refine exists_congr fun tID => ?_
  constructor
  · rintro ⟨ct, hct, hin⟩
    refine ⟨fun hn => ?_, (hE.closed_iff hct).mpr hin⟩
    rw [hrep.treePtr_none_iff, hct] at hn
    exact absurd hn (by simp)
  · rintro ⟨hne, hgone⟩
    rw [ne_eq, hrep.treePtr_none_iff] at hne
    obtain ⟨ct, hct⟩ := Option.ne_none_iff_exists'.mp hne
    exact ⟨ct, hct, (hE.closed_iff hct).mp hgone⟩

end Closed

/-- A thread with an open call has its active path. -/
theorem OpenCall.active_ne_nil {L : Ledger} {h : Handle} {calls : List Started} {l : ThreadLog}
    (ho : OpenCall L tID h calls) (hl : L.thread tID = some l) : l.active ≠ [] := by
  obtain ⟨l', hl', ht⟩ := ho
  obtain rfl := Option.some.inj (hl.symm.trans hl')
  intro hnil
  obtain ⟨hsuff, hne⟩ := Frames.trail_suffix ht
  rw [List.map_eq_nil_iff.mp hnil] at hsuff
  exact hne (List.suffix_nil.mp hsuff)

/-- **Removal at a report is exact**: in a run without explicit removals, of fewer than `2 ^ 64`
    calls, with stops in any order and from any thread. -/
theorem closeInactiveThreads_exact (pID : pid_t) (ops : List Op) (s : InProc)
    (hops : ∀ op ∈ ops, op.isClose = false) (hbound : ops.countP Op.isStart < 2 ^ 64)
    (hs : InProc.run pID ops = .ok s) (hreg : RDKPerf_FindProcess s.mem pID = some pID) :
    ∃ m' retVal, PerfProcess.closeInactiveThreads s.mem pID = .ok (m', retVal) ∧
      RemovesUnused s (Ledger.run pID ops) m' retVal := by
  have hS := InProc.run_sim hs
  obtain rfl : s.pID = pID := hS.pID
  have hrep := hS.rep
  have hreg' : ((Ledger.run s.pID ops).world s.pID).registered s.pID = true := by
    rw [findProcess_eq hrep] at hreg
    exact Classical.byContradiction fun hn => by rw [if_neg hn] at hreg; exact absurd hreg (by simp)
  obtain ⟨m', retVal, hm', hE, hflag⟩ := closeInactiveThreads_spec hrep hreg'
  have hgone : ∀ {tID l}, (Ledger.run s.pID ops).thread tID = some l →
      (m'.treePtr s.pID tID = none ↔
        (∀ π, .enter π ∉ sinceReport l.events) ∧ l.active = []) := by
    intro tID l hl
    have htree := Ledger.world_tree_self (Ledger.run s.pID ops) s.pID tID
    rw [hl, Option.map_some] at htree
    rw [hE.closed_iff htree]
    -- the counter counts the entries since the report, which are too few for it to wrap
    have hle := Ledger.entries_le hl
    have hadd := entries_eq_add l.events
    exact ThreadLog.inactive_iff (by omega)
  refine ⟨m', retVal, hm', ?_, hE.closed_or_kept hrep, hflag.trans (hE.some_closed_iff hrep), ?_⟩
  · intro tID t ht
    obtain ⟨r, ct, hA⟩ := hrep.present ht
    have hspec := hA.spec
    rw [Ledger.world_tree_self] at hspec
    obtain ⟨l, hl, rfl⟩ := Option.map_eq_some_iff.mp hspec
    obtain ⟨tr, htr, htop⟩ := hA.top_eq_root_iff
    refine ⟨l, tr, hl, htr, ?_⟩
    rw [hgone hl, htop]
    rfl
  · intro h record hrec
    obtain ⟨tID, calls, ho⟩ := InProc.allOpen hops hs h ((hS.opened h).mp (by rw [hrec]; simp))
    obtain ⟨record', p, hH⟩ := hS.attached ho
    obtain rfl := Option.some.inj (hrec.symm.trans hH.get)
    rw [hH.idThread]
    have ⟨l, hl, _⟩ := ho
    have hstay : m'.treePtr s.pID tID ≠ none := by
      rw [ne_eq, hgone hl]
      exact fun hk => ho.active_ne_nil hl hk.2
    refine ⟨hstay, p, hH.node, (hH.nodeIs.evolve hE ?_).live⟩
    rwa [ne_eq, ← hE.rep.treePtr_none_iff]

/-- A call of each of two threads; one is over and reported, the other is still open. -/
def oneOpen : List Op :=
  [.start threadA nameF none {}, .start threadB nameG none {}, .stop threadA 0 {},
    .reportProcess threadA 42 {}]

theorem oneOpen_removal : ∃ s m' retVal, InProc.run 42 oneOpen = .ok s ∧
    PerfProcess.closeInactiveThreads s.mem 42 = .ok (m', retVal) ∧
      RemovesUnused s (Ledger.run 42 oneOpen) m' retVal := by
  obtain ⟨s, hs, hreg⟩ := ok_of_toOption_bind (show (InProc.run 42 oneOpen).toOption.bind
    (RDKPerf_FindProcess ·.mem 42) = some 42 by decide)
  obtain ⟨m', retVal, hm', hremoves⟩ :=
    closeInactiveThreads_exact 42 oneOpen s (by decide) (by decide) hs hreg
  exact ⟨s, m', retVal, hs, hm', hremoves⟩

/-! ## What a removal loses -/

/-- Nothing in the interval figures: every call of the tree was reported. -/
def Reported (ct : CallTree) : Prop :=
  ∀ π d, π ≠ [] → ct.node π = some d → d.stats.nIntervalCount = 0 ∧ d.stats.nIntervalTime = 0

/-- Where no path was left twice since the report, the interval figures are clear exactly when
    nothing was left. -/
theorem Ledger.reported_iff {l : ThreadLog} (hl : (Ledger.run pID ops).thread tID = some l)
    (honce : ∀ π, (elapsedAt π (sinceReport l.events)).length ≤ 1) :
    Reported l.callTree ↔ leaves (sinceReport l.events) = 0 := by
  constructor
  · intro hreported
    rw [leaves_eq_zero_iff]
    intro π d hleft
    have hleft' := sinceReport_subset hleft
    have hπ := Ledger.left_ne_nil hl hleft'
    have hnode : l.callTree.node π = some ⟨statsAt π l.events, -1⟩ := by
      rw [ThreadLog.callTree_node, if_pos (Or.inr (l.left_entered hleft'))]
    have hcount := (hreported π _ hπ hnode).1
    rw [show (NodeData.mk (statsAt π l.events) (-1)).stats = statsAt π l.events from rfl,
      (statsAt_interval l.events hπ).1] at hcount
    -- one call fits the counter
    have hlen := honce π
    have hnat := congrArg UInt64.toNat hcount
    rw [UInt64.toNat_ofNat', Nat.mod_eq_of_lt (by omega)] at hnat
    rw [← mem_elapsedAt, List.eq_nil_of_length_eq_zero hnat] at hleft
    exact absurd hleft (by simp)
  · intro hzero π d hπ hnode
    have hnil : elapsedAt π (sinceReport l.events) = [] := by
      have hlen := length_elapsedAt_le π (sinceReport l.events)
      exact List.eq_nil_of_length_eq_zero (by omega)
    rw [ThreadLog.callTree_node] at hnode
    split at hnode
    · obtain rfl := Option.some.inj hnode
      obtain ⟨hcount, htime⟩ := statsAt_interval l.events hπ
      rw [hnil] at hcount htime
      exact ⟨hcount, htime⟩
    · exact absurd hnode (by simp)

/-- **A removal loses calls exactly if some call was open at the last report.** In a well-nested
    run, of a tree that the removal at a report deletes every call was reported if and only if
    nothing was open in it when it was last reported. The counter the removal looks at must not
    have come round since: the thread entered fewer than `2 ^ 64` calls after that report. -/
theorem reported_iff_nothing_open (pID : pid_t) (ops : List Op) (s : InProc)
    (hops : ∀ op ∈ ops, op.isMeasure ∨ op.isReport) (hnest : WellNested ops)
    (hs : InProc.run pID ops = .ok s) (m' : Mem) (retVal : Bool)
    (hclose : PerfProcess.closeInactiveThreads s.mem pID = .ok (m', retVal))
    (tID : pthread_t) (ct : CallTree) (l : ThreadLog) (hview : s.mem.view pID tID = some ct)
    (hgone : m'.view pID tID = none) (hl : (Ledger.run pID ops).thread tID = some l)
    (hwrap : entries (sinceReport l.events) < 2 ^ 64) :
    Reported ct ↔ openAtReport l.events = [] := by
  have hS := InProc.run_sim hs
  have hrep := hS.rep
  rw [hS.pID] at hrep
  have htree := Ledger.world_tree_self (Ledger.run pID ops) pID tID
  rw [hl, Option.map_some] at htree
  rw [hrep.view, htree] at hview
  obtain rfl := Option.some.inj hview
  -- the tree was removed, so it was inactive
  have hreg := hrep.registered_of_tree htree
  obtain ⟨m₁, b, hm₁, hE, -⟩ := closeInactiveThreads_spec hrep hreg
  obtain ⟨rfl, rfl⟩ := Prod.mk.inj (Except.ok.inj (hclose.symm.trans hm₁))
  rw [hE.rep.view, ← hE.rep.treePtr_none_iff, hE.closed_iff htree] at hgone
  obtain ⟨hentered, hactive⟩ := (ThreadLog.inactive_iff hwrap).mp hgone
  rw [← entries_eq_zero_iff] at hentered
  obtain ⟨n, hn⟩ := hnest
  have honce : ∀ π, (elapsedAt π (sinceReport l.events)).length ≤ 1 := by
    intro π
    have hle := run_leftOnce hops hn hs hl hentered π
    split at hle
    · exact hle
    · omega
  -- what was left since the report is what was open at it
  have hbalanced := run_balanced hops hn hs hl
  unfold ThreadLog.Balanced at hbalanced
  rw [hactive, hentered] at hbalanced
  rw [Ledger.reported_iff hl honce, ← List.length_eq_zero_iff]
  simp only [List.length_nil] at hbalanced
  omega

/-- `f` is called, and reported while it runs. -/
def reportedWhileOpen : List Op :=
  [.start threadA nameF none {}, .reportProcess threadA 42 {},
    .stop threadA 0 { timeStamp := 5 }]

/-- What the next report finds of `f`, and whether its removal leaves the tree. -/
def lostAtReport (s : InProc) : Option (UInt64 × Bool) := do
  let ct ← s.mem.view 42 1
  let d ← ct.node [nameF.bytes]
  let (m', _) ← (PerfProcess.closeInactiveThreads s.mem 42).toOption
  some (d.stats.nIntervalCount, (m'.view 42 1).isSome)

/-- The tree goes with one call in its interval figures. -/
theorem reportedWhileOpen_removed : ∃ s ct d m' retVal,
    InProc.run 42 reportedWhileOpen = .ok s ∧
    PerfProcess.closeInactiveThreads s.mem 42 = .ok (m', retVal) ∧
    s.mem.view 42 1 = some ct ∧ m'.view 42 1 = none ∧
    ct.node [nameF.bytes] = some d ∧ d.stats.nIntervalCount = 1 := by
  obtain ⟨s, hs, hlost⟩ := ok_of_toOption_bind
    (show (InProc.run 42 reportedWhileOpen).toOption.bind lostAtReport = some (1, false) by decide)
  obtain ⟨ct, hct, hlost⟩ := Option.bind_eq_some_iff.mp hlost
  obtain ⟨d, hd, hlost⟩ := Option.bind_eq_some_iff.mp hlost
  obtain ⟨⟨m', retVal⟩, hm', hlost⟩ := ok_of_toOption_bind hlost
  obtain ⟨hcount, hview⟩ := Prod.mk.inj (Option.some.inj hlost)
  exact ⟨s, ct, d, m', retVal, hs, hm', hct, Option.not_isSome_iff_eq_none.mp (by rw [hview]; simp),
    hd, hcount⟩

theorem reportedWhileOpen_iff : ∃ s ct l, InProc.run 42 reportedWhileOpen = .ok s ∧
    s.mem.view 42 1 = some ct ∧ (Ledger.run 42 reportedWhileOpen).thread 1 = some l ∧
    (Reported ct ↔ openAtReport l.events = []) := by
  obtain ⟨s, ct, d, m', retVal, hs, hm', hct, hgone, -⟩ := reportedWhileOpen_removed
  obtain ⟨l, hl, hentered⟩ := Option.map_eq_some_iff.mp
    (show ((Ledger.run 42 reportedWhileOpen).thread 1).map (fun l => entries (sinceReport l.events)) =
      some 0 by decide)
  exact ⟨s, ct, l, hs, hct, hl, reported_iff_nothing_open 42 reportedWhileOpen s (by decide) ⟨_, rfl⟩
    hs m' retVal hm' 1 ct l hct hgone hl (by rw [hentered]; decide)⟩

/-- A measured call is dropped unreported. -/
theorem reportedWhileOpen_unreported : ¬ ∀ (pID : pid_t) (ops : List Op) (s : InProc) (m' : Mem)
    (retVal : Bool) (tID : pthread_t) (ct : CallTree),
    (∀ op ∈ ops, op.isMeasure ∨ op.isReport) → WellNested ops → InProc.run pID ops = .ok s →
      PerfProcess.closeInactiveThreads s.mem pID = .ok (m', retVal) →
        s.mem.view pID tID = some ct → m'.view pID tID = none → Reported ct := by
  intro hall
  obtain ⟨s, ct, d, m', retVal, hs, hm', hct, hgone, hd, hcount⟩ := reportedWhileOpen_removed
  have hreported := hall 42 reportedWhileOpen s m' retVal 1 ct (by decide) ⟨_, rfl⟩ hs hm' hct hgone
  have hzero := (hreported _ d (by simp) hd).1
  rw [hcount] at hzero
  exact absurd hzero (by decide)

end RdkPerf

import RdkPerf.Proof.Nested

/-!
# Open records and the nodes they hold

A record keeps a raw pointer to its node, and nothing tells it when the node goes. Three calls
delete trees. The removal at a report looks at the stack first, and so never takes a tree that a
record still refers to; `RDKPerf_CloseThread` and `RDKPerf_CloseProcess` do not look
(`refers_iff_harmless`).

The second half is about the order of stops. A record that is stopped while a newer one of its
thread is open leaves its node on the stack, where nothing will ever close it
(`drained_iff_newest_first`).
-/

namespace RdkPerf

open Lib

variable {pID : pid_t} {s s' : InProc} {L : Ledger} {op : Op} {ops : List Op}
  {tID : pthread_t} {h : Handle} {calls : List Started}

/-! ## Every open record has its call -/

/-- No record was left behind: the call of each is open. -/
def AllOpen (L : Ledger) : Prop := ∀ h ∈ L.opened, ∃ tID calls, OpenCall L tID h calls

/-- A removal that finds no open record of a tree it deletes. -/
def Harmless (pID : pid_t) (L : Ledger) : Op → Prop
  | .closeThread _ tID => Frames.handles (L.frames tID) = []
  | .closeProcess _ p => p = pID → ∀ tID, Frames.handles (L.frames tID) = []
  | .start _ _ _ _ => True
  | .stop _ _ _ => True
  | .setThreshold _ _ _ => True
  | .reportProcess _ _ _ => True
  | .reportThread _ _ => True

/-- The call removes the tree of the thread, whatever is open there. -/
def Op.Closes (pID : pid_t) (tID : pthread_t) (op : Op) : Prop :=
  (∃ caller, op = .closeThread caller tID) ∨ ∃ caller, op = .closeProcess caller pID

/-- Only an explicit removal drops a log with an open call in it. -/
theorem OpenCall.keeps (ho : OpenCall L tID h calls) (hop : ¬ op.Closes pID tID) :
    (L.step pID op).thread tID ≠ none := by
  have hmem := ho.mem_handles
  obtain ⟨l, hl, -⟩ := ho
  intro hn
  cases op with
  | start caller szName nThresholdInUS env =>
    simp only [Ledger.step, Ledger.setThread_thread] at hn
    split at hn
    · exact absurd hn (by simp)
    · rw [hl] at hn; exact absurd hn (by simp)
  | stop caller hPerf env =>
    have hn' : (L.thread tID).map _ = none := hn
    rw [hl] at hn'; exact absurd hn' (by simp)
  | setThreshold caller hPerf nThresholdInUS =>
    have hn' : L.thread tID = none := hn
    rw [hl] at hn'; exact absurd hn' (by simp)
  | reportProcess caller p env =>
    simp only [Ledger.step] at hn
    split at hn
    · -- an inactive tree has nothing open
      have hf := L.frames_reportThreads tID
      rw [Ledger.frames, hn] at hf
      rw [← hf] at hmem
      exact absurd hmem (by simp [Frames.handles])
    · rw [hl] at hn; exact absurd hn (by simp)
  | reportThread caller u =>
    simp only [Ledger.step, Ledger.setThread_thread] at hn
    split at hn
    · next hu => rw [← hu, hl] at hn; exact absurd hn (by simp)
    · rw [hl] at hn; exact absurd hn (by simp)
  | closeThread caller u =>
    simp only [Ledger.step, Ledger.setThread_thread] at hn
    split at hn
    · next hu => exact hop (Or.inl ⟨caller, hu ▸ rfl⟩)
    · rw [hl] at hn; exact absurd hn (by simp)
  | closeProcess caller p =>
    simp only [Ledger.step] at hn
    split at hn
    · next hp => exact hop (Or.inr ⟨caller, hp ▸ rfl⟩)
    · rw [hl] at hn; exact absurd hn (by simp)

/-- A harmless call drops no log with an open call in it. -/
theorem Harmless.keeps (hop : Harmless pID L op) (ho : OpenCall L tID h calls) :
    (L.step pID op).thread tID ≠ none := by
  have hmem := ho.mem_handles
  apply ho.keeps
  intro hcloses
  have hnone : Frames.handles (L.frames tID) = [] := by
    rcases hcloses with ⟨caller, rfl⟩ | ⟨caller, rfl⟩
    · exact hop
    · exact hop rfl tID
  rw [hnone] at hmem
  exact absurd hmem (by simp)

theorem mem_opened_step (hh : h ∈ (L.step pID op).opened) :
    (h ∈ L.opened ∧ Spares op h) ∨
      ∃ caller szName nThresholdInUS env, op = .start caller szName nThresholdInUS env ∧
        h = L.next := by
  cases op with
  | start caller szName nThresholdInUS env =>
    rcases List.mem_cons.mp hh with rfl | hh
    · exact Or.inr ⟨_, _, _, _, rfl, rfl⟩
    · exact Or.inl ⟨hh, spares_of_not_stop rfl h⟩
  | stop caller hPerf env =>
    obtain ⟨hh, hne⟩ := List.mem_filter.mp hh
    refine Or.inl ⟨hh, fun caller' env' heq => ?_⟩
    rw [(Op.stop.inj heq).2.1] at hne
    exact absurd hne (by simp)
  | setThreshold caller hPerf nThresholdInUS => exact Or.inl ⟨hh, spares_of_not_stop rfl h⟩
  | reportProcess caller p env =>
    simp only [Ledger.step] at hh
    split at hh
    · exact Or.inl ⟨hh, spares_of_not_stop rfl h⟩
    · exact Or.inl ⟨hh, spares_of_not_stop rfl h⟩
  | reportThread caller u => exact Or.inl ⟨hh, spares_of_not_stop rfl h⟩
  | closeThread caller u => exact Or.inl ⟨hh, spares_of_not_stop rfl h⟩
  | closeProcess caller p =>
    simp only [Ledger.step] at hh
    split at hh
    · exact Or.inl ⟨hh, spares_of_not_stop rfl h⟩
    · exact Or.inl ⟨hh, spares_of_not_stop rfl h⟩

theorem AllOpen.step (hS : Sim pID s L) (hA : AllOpen L) (hop : Harmless pID L op) :
    AllOpen (L.step pID op) := by
  intro h hh
  rcases mem_opened_step hh with ⟨hold, hspare⟩ | ⟨caller, szName, nThresholdInUS, env, rfl, rfl⟩
  · obtain ⟨tID, calls, ho⟩ := hA h hold
    rcases hS.openCall_step ho hspare with ho' | hgone
    · exact ⟨tID, calls, ho'⟩
    · exact absurd hgone (hop.keeps ho)
  · exact ⟨_, _, Sim.openCall_start caller szName nThresholdInUS env⟩

/-! ## What a record refers to -/

/-- Every open record holds a live node of a tree in the process map. -/
def Refers (s : InProc) : Prop :=
  ∀ h record, s.records.get h = some record → ∃ t tr r p, record.nodeInTree = some p ∧
    s.mem.treePtr s.pID record.idThread = some t ∧ s.mem.trees.get t = some tr ∧
    tr.rootNode = some r ∧ Reaches (childOf s.mem) r p ∧ s.mem.nodes.get p ≠ none

theorem Sim.refers (hS : Sim pID s L) (hA : AllOpen L) : Refers s := by
  intro h record hrec
  obtain ⟨tID, calls, ho⟩ := hA h ((hS.opened h).mp (by rw [hrec]; simp))
  obtain ⟨record', p, hH⟩ := hS.attached ho
  obtain rfl := Option.some.inj (hrec.symm.trans hH.get)
  obtain ⟨t, r, ct, hAt, hp⟩ := hH.nodeIs
  obtain ⟨stack, htree, -⟩ := hAt.tracks.tree
  exact ⟨t, _, r, p, hH.node, hH.idThread ▸ hAt.ptr, htree, rfl, ⟨_, hp⟩,
    hAt.tracks.reached_live ⟨_, hp⟩⟩

/-- A removal that is not harmless leaves a record without a tree. -/
theorem Sim.not_refers (hS : Sim pID s L) (hS' : Sim pID s' (L.step pID op))
    (hs' : s.step op = .ok s') (hharm : ¬ Harmless pID L op) : ¬ Refers s' := by
  -- an open record of a log that the call drops
  obtain ⟨tID, h, hh, hgone, hkept⟩ : ∃ tID h, h ∈ Frames.handles (L.frames tID) ∧
      (L.step pID op).thread tID = none ∧ s'.records = s.records := by
    cases op with
    | closeThread caller tID =>
      obtain ⟨m', -, heq⟩ := bind_eq_ok.mp hs'
      obtain rfl := Except.ok.inj heq
      obtain ⟨h, hh⟩ := List.exists_mem_of_ne_nil _ hharm
      exact ⟨tID, h, hh, if_pos rfl, rfl⟩
    | closeProcess caller p =>
      obtain ⟨m', -, heq⟩ := bind_eq_ok.mp hs'
      obtain rfl := Except.ok.inj heq
      simp only [Harmless, not_forall] at hharm
      obtain ⟨rfl, tID, hne⟩ := hharm
      obtain ⟨h, hh⟩ := List.exists_mem_of_ne_nil _ hne
      refine ⟨tID, h, hh, ?_, rfl⟩
      simp only [Ledger.step, if_true]
    | start caller szName nThresholdInUS env => exact absurd trivial hharm
    | stop caller hPerf env => exact absurd trivial hharm
    | setThreshold caller hPerf nThresholdInUS => exact absurd trivial hharm
    | reportProcess caller p env => exact absurd trivial hharm
    | reportThread caller u => exact absurd trivial hharm
  obtain ⟨calls, ho⟩ := exists_openCall hh
  obtain ⟨record, p, hH⟩ := hS.attached ho
  intro hrefers
  obtain ⟨t, -, -, -, -, hptr, -⟩ := hrefers h record (by rw [hkept]; exact hH.get)
  have hnone : s'.mem.treePtr s'.pID tID = none := by
    rw [hS'.rep.treePtr_none_iff, Ledger.world_tree_self, hgone]
    rfl
  rw [hH.idThread, hnone] at hptr
  exact absurd hptr (by simp)

/-- What a caller has to keep to: a stop and a threshold name an open record, and a thread is
    reported only while the process is registered. Whether the record still has its node is not
    for the caller to know. -/
def Usable (L : Ledger) : Op → Prop
  | .stop _ h _ => h ∈ L.opened
  | .setThreshold _ h _ => h ∈ L.opened
  | .reportThread _ _ => L.registered = true
  | .start _ _ _ _ => True
  | .reportProcess _ _ _ => True
  | .closeThread _ _ => True
  | .closeProcess _ _ => True

theorem AllOpen.legal (hA : AllOpen L) (hop : Usable L op) (hname : op.named) : Legal L op := by
  cases op with
  | stop caller hPerf env => exact hA hPerf hop
  | start caller szName nThresholdInUS env => exact of_decide_eq_true (p := szName.bytes ≠ []) hname
  | setThreshold caller hPerf nThresholdInUS => exact hop
  | reportProcess caller p env => trivial
  | reportThread caller u => exact hop
  | closeThread caller u => trivial
  | closeProcess caller p => trivial

theorem run_allOpen
    (husable : ∀ pre op post, ops = pre ++ op :: post → Usable (Ledger.run pID pre) op)
    (hharm : ∀ pre op post, ops = pre ++ op :: post →
      Harmless pID (Ledger.run pID pre) op ∧ op.named) :
    ∃ s, InProc.run pID ops = .ok s ∧ Sim pID s (Ledger.run pID ops) ∧
      AllOpen (Ledger.run pID ops) := by
  induction ops using List.reverseRecOn with
  | nil => exact ⟨_, rfl, .init pID, fun h hh => absurd hh (by simp [Ledger.run, Ledger.init])⟩
  | append_singleton ops op ih =>
    obtain ⟨husable, hop⟩ := forall_places_concat.mp husable
    obtain ⟨hharm, hnot⟩ := forall_places_concat.mp hharm
    obtain ⟨s, hs, hS, hA⟩ := ih husable hharm
    obtain ⟨s', hs', hS'⟩ := hS.step_ok (hA.legal hop hnot.2)
    rw [Ledger.run_concat]
    exact ⟨s', foldlM_concat_ok.mpr ⟨s, hs, hs'⟩, hS', hA.step hS hnot.1⟩

/-- **An open record refers to a live node exactly as long as the explicit removals keep away from
    it.** In every state of the run each open record holds a node of a registered tree, if and only
    if every `RDKPerf_CloseThread` and `RDKPerf_CloseProcess` finds no open record of a tree it
    deletes, and every start is given a name. Reports need no such care. -/
theorem refers_iff_harmless (pID : pid_t) (ops : List Op)
    (husable : ∀ pre op post, ops = pre ++ op :: post → Usable (Ledger.run pID pre) op) :
    (∀ pre post, ops = pre ++ post → ∃ s, InProc.run pID pre = .ok s ∧ Refers s) ↔
      ∀ pre op post, ops = pre ++ op :: post →
        Harmless pID (Ledger.run pID pre) op ∧ op.named := by
  constructor
  · intro hall pre op post hsplit
    obtain ⟨s', hs', hrefers⟩ := hall (pre ++ [op]) post (by rw [hsplit]; simp)
    obtain ⟨s, hs, hstep⟩ := foldlM_concat_ok.mp hs'
    have hS := InProc.run_sim hs
    refine ⟨?_, (hS.step_legal hstep).named⟩
    exact Classical.byContradiction fun hharm =>
      hS.not_refers (hS.step_sim hstep) hstep hharm hrefers
  · intro hharm pre post hsplit
    have husable' : ∀ a op b, pre = a ++ op :: b → Usable (Ledger.run pID a) op :=
      fun a op b hpre => husable a op (b ++ post) (by rw [hsplit, hpre]; simp)
    have hharm' : ∀ a op b, pre = a ++ op :: b →
        Harmless pID (Ledger.run pID a) op ∧ op.named :=
      fun a op b hpre => hharm a op (b ++ post) (by rw [hsplit, hpre]; simp)
    obtain ⟨s, hs, hS, hA⟩ := run_allOpen husable' hharm'
    exact ⟨s, hs, hS.refers hA⟩

/-- One call, and a removal of another thread while it is open. -/
def closeOther : List Op :=
  [.start threadA nameF none {}, .closeThread threadA 2]

theorem closeOther_usable :
    ∀ pre op post, closeOther = pre ++ op :: post → Usable (Ledger.run 42 pre) op := by
  intro pre op post h
  have hmem : op ∈ closeOther := by rw [h]; simp
  rcases List.mem_pair.mp hmem with rfl | rfl
  · trivial
  · trivial

theorem closeOther_refers :
    (∀ pre post, closeOther = pre ++ post → ∃ s, InProc.run 42 pre = .ok s ∧ Refers s) ↔
      ∀ pre op post, closeOther = pre ++ op :: post →
        Harmless 42 (Ledger.run 42 pre) op ∧ op.named :=
  refers_iff_harmless 42 closeOther closeOther_usable

/-- `RDKPerfStart` and then `RDKPerf_CloseThread` of the same thread. -/
def closeSelf : List Op :=
  [.start threadA nameF none {}, .closeThread threadA 1]

/-- The record is still open, and its node is gone. -/
theorem closeThread_dangles : ¬ ∀ (pID : pid_t) (ops : List Op) (s : InProc),
    (∀ pre op post, ops = pre ++ op :: post → Usable (Ledger.run pID pre) op) →
      InProc.run pID ops = .ok s → Refers s := by
  intro hall
  have husable : ∀ pre op post, closeSelf = pre ++ op :: post → Usable (Ledger.run 42 pre) op := by
    intro pre op post h
    have hmem : op ∈ closeSelf := by rw [h]; simp
    rcases List.mem_pair.mp hmem with rfl | rfl
    · trivial
    · trivial
  have hfinal : (InProc.run 42 closeSelf).toOption.bind (fun s =>
      (s.records.get 0).map fun record => (record.nodeInTree, (s.mem.nodes.get 1).isSome)) =
        some (some 1, false) := by decide
  obtain ⟨s, hs, hrec⟩ := ok_of_toOption_bind hfinal
  obtain ⟨record, hrec, heq⟩ := Option.map_eq_some_iff.mp hrec
  obtain ⟨hnode, hdead⟩ := Prod.mk.inj heq
  obtain ⟨_, _, _, p, hp, -, -, -, -, hlive⟩ := hall 42 closeSelf s husable hs 0 record hrec
  obtain rfl := Option.some.inj (hnode.symm.trans hp)
  exact hlive (Option.not_isSome_iff_eq_none.mp (by rw [hdead]; simp))

/-! ## The order of stops -/

/-- The stack is back to the root alone. -/
def Drained (m : Mem) (pID : pid_t) (tID : pthread_t) : Prop :=
  ∃ t tr r, m.treePtr pID tID = some t ∧ m.trees.get t = some tr ∧ tr.rootNode = some r ∧
    tr.activeNode = [r]

theorem At.drained_iff {m : Mem} {w : World} {t : TreePtr} {r : NodePtr} {ct : CallTree}
    (hA : At m w pID tID t r ct) : Drained m pID tID ↔ ct.active = [] := by
  obtain ⟨stack, htree, hspells⟩ := hA.tracks.tree
  constructor
  · rintro ⟨t', tr, r', ht', htr, -, hstack⟩
    obtain rfl := Option.some.inj (hA.ptr.symm.trans ht')
    obtain rfl := Option.some.inj (htree.symm.trans htr)
    have hlen := hspells.length
    rw [show stack = [r'] from hstack, List.length_singleton] at hlen
    exact List.eq_nil_of_length_eq_zero (by omega)
  · intro hnil
    rw [hnil] at hspells
    exact ⟨t, _, r, hA.ptr, htree, rfl, hspells⟩

/-- A stop of a record of the thread closes the newest one that is open. -/
def ClosesNewest (L : Ledger) (tID : pthread_t) : Op → Prop
  | .stop _ h _ => h ∈ Frames.handles (L.frames tID) →
      ∀ k ∈ Frames.handles (L.frames tID), k ≤ h
  | .start _ _ _ _ => True
  | .setThreshold _ _ _ => True
  | .reportProcess _ _ _ => True
  | .reportThread _ _ => True
  | .closeThread _ _ => True
  | .closeProcess _ _ => True

/-- Only a stop that does not close the newest record makes a frame stale, and no frame ceases to
    be. -/
theorem Sim.stale_step (hS : Sim pID s L) (hop : op.isClose = false) (tID : pthread_t) :
    ¬ Frames.Stale ((L.step pID op).frames tID) ↔
      ¬ Frames.Stale (L.frames tID) ∧ ClosesNewest L tID op := by
  have hsame : ∀ {op}, (L.step pID op).frames tID = L.frames tID → ClosesNewest L tID op →
      (¬ Frames.Stale ((L.step pID op).frames tID) ↔
        ¬ Frames.Stale (L.frames tID) ∧ ClosesNewest L tID op) := by
    intro op hframes hnew
    rw [hframes]
    exact ⟨fun h => ⟨h, hnew⟩, fun h => h.1⟩
  cases op with
  | start caller szName nThresholdInUS env =>
    rw [Ledger.frames_start]
    split
    · next htid =>
      rw [Frames.stale_push, htid]
      exact ⟨fun h => ⟨h, trivial⟩, fun h => h.1⟩
    · exact ⟨fun h => ⟨h, trivial⟩, fun h => h.1⟩
  | stop caller h env =>
    have hframes : (L.step pID (.stop caller h env)).frames tID =
        Frames.release h (L.frames tID) := by
      show ((L.thread tID).map _).elim [] ThreadLog.frames = _
      unfold Ledger.frames
      cases L.thread tID with
      | none => rfl
      | some l => exact ThreadLog.stop_frames
    by_cases hh : h ∈ Frames.handles (L.frames tID)
    · rw [hframes, Frames.stale_release (hS.ordered_frames tID) hh, not_or]
      refine and_congr_right fun _ => ?_
      simp only [ClosesNewest, hh, true_imp_iff, not_exists, not_and, not_lt]
    · refine hsame ?_ fun hmem => absurd hmem hh
      rw [hframes, Frames.release_of_not_mem hh]
  | setThreshold caller h nThresholdInUS => exact hsame rfl trivial
  | reportProcess caller p env =>
    refine hsame ?_ trivial
    simp only [Ledger.step]
    split
    · exact L.frames_reportThreads tID
    · rfl
  | reportThread caller u =>
    refine hsame ?_ trivial
    simp only [Ledger.step, Ledger.frames, Ledger.setThread_thread]
    split
    · next hu => rw [hu]; cases L.thread u <;> rfl
    · rfl
  | closeThread caller u => exact absurd hop (by simp [Op.isClose])
  | closeProcess caller p => exact absurd hop (by simp [Op.isClose])

theorem run_stale (hops : ∀ op ∈ ops, op.isClose = false) (hs : InProc.run pID ops = .ok s)
    (tID : pthread_t) : ¬ Frames.Stale ((Ledger.run pID ops).frames tID) ↔
      ∀ pre op post, ops = pre ++ op :: post → ClosesNewest (Ledger.run pID pre) tID op := by
  induction ops using List.reverseRecOn generalizing s with
  | nil => exact iff_of_true Frames.not_stale_nil forall_places_nil
  | append_singleton ops op ih =>
    obtain ⟨s₁, hs₁, -⟩ := foldlM_concat_ok.mp hs
    rw [forall_places_concat, ← ih (fun op' hmem => hops op' (List.mem_append_left _ hmem)) hs₁,
      Ledger.run_concat]
    exact (InProc.run_sim hs₁).stale_step (hops op (by simp)) tID

/-- **The stack drains exactly if the records are stopped newest first.** When all records a
    thread started are stopped, its stack is back to the root if and only if every stop of one of
    them closed the one started last among those still open. -/
theorem drained_iff_newest_first (pID : pid_t) (ops : List Op) (s : InProc) (tID : pthread_t)
    (hops : ∀ op ∈ ops, op.isClose = false) (hs : InProc.run pID ops = .ok s)
    (hstopped : ∀ h record, s.records.get h = some record → record.idThread ≠ tID)
    (htree : s.mem.treePtr pID tID ≠ none) :
    Drained s.mem pID tID ↔
      ∀ pre op post, ops = pre ++ op :: post → ClosesNewest (Ledger.run pID pre) tID op := by
  have hS := InProc.run_sim hs
  -- a thread without open records has no open handle in its frames
  have hnone : Frames.handles ((Ledger.run pID ops).frames tID) = [] := by
    refine List.eq_nil_iff_forall_not_mem.mpr fun h hh => ?_
    obtain ⟨calls, ho⟩ := exists_openCall hh
    obtain ⟨record, p, hH⟩ := hS.attached ho
    exact hstopped h record hH.get hH.idThread
  rw [← run_stale hops hs, ← Frames.eq_nil_iff_not_stale hnone]
  obtain ⟨t, ht⟩ := Option.ne_none_iff_exists'.mp htree
  rw [← hS.pID] at ht
  obtain ⟨r, ct, hA⟩ := hS.rep.present ht
  have hspec := hA.spec
  rw [Ledger.world_tree_self] at hspec
  obtain ⟨l, hl, rfl⟩ := Option.map_eq_some_iff.mp hspec
  rw [← hS.pID, hA.drained_iff, hS.pID, Ledger.frames_of_some hl]
  show pathOf (Frames.items l.frames) = [] ↔ _
  unfold pathOf Frames.items
  rw [List.map_eq_nil_iff, List.map_eq_nil_iff]

/-- `f` and `g` inside it, stopped from the inside out. -/
def nestedStops : List Op :=
  [.start threadA nameF none {}, .start threadA nameG none {}, .stop threadA 1 {},
    .stop threadA 0 {}]

theorem nestedStops_drained : ∃ s, InProc.run 42 nestedStops = .ok s ∧
    (Drained s.mem 42 1 ↔ ∀ pre op post, nestedStops = pre ++ op :: post →
      ClosesNewest (Ledger.run 42 pre) 1 op) := by
  have hnone : (Ledger.run 42 nestedStops).opened = [] := by decide
  obtain ⟨s, hs, hptr⟩ := ok_of_toOption_bind (show (InProc.run 42 nestedStops).toOption.bind
    (·.mem.treePtr 42 1) = some 0 by decide)
  refine ⟨s, hs, drained_iff_newest_first 42 nestedStops s 1 (by decide) hs ?_ ?_⟩
  · intro h record hrec
    have hopen := ((InProc.run_sim hs).opened h).mp (by rw [hrec]; simp)
    rw [hnone] at hopen
    exact absurd hopen (by simp)
  · rw [hptr]
    simp

/-- The same calls, stopped from the outside in. -/
def crossedStops : List Op :=
  [.start threadA nameF none {}, .start threadA nameG none {}, .stop threadA 0 {},
    .stop threadA 1 {}]

/-- The node of `f` is on the stack for good. -/
theorem crossedStops_not_drained : ¬ ∀ (pID : pid_t) (ops : List Op) (s : InProc) (tID : pthread_t),
    (∀ op ∈ ops, op.isMeasure) → InProc.run pID ops = .ok s →
      (∀ h record, s.records.get h = some record → record.idThread ≠ tID) →
        s.mem.treePtr pID tID ≠ none → Drained s.mem pID tID := by
  intro hall
  have hnone : (Ledger.run 42 crossedStops).opened = [] := by decide
  obtain ⟨s, hs, hptr⟩ := ok_of_toOption_bind (show (InProc.run 42 crossedStops).toOption.bind
    (fun s => (s.mem.treePtr 42 1).map fun t => (t, (s.mem.trees.get t).map (·.activeNode))) =
      some (0, some [1, 0]) by decide)
  obtain ⟨t, ht, heq⟩ := Option.map_eq_some_iff.mp hptr
  obtain ⟨rfl, hactive⟩ := Prod.mk.inj heq
  have hstopped : ∀ h record, s.records.get h = some record → record.idThread ≠ 1 := by
    intro h record hrec
    have hopen := ((InProc.run_sim hs).opened h).mp (by rw [hrec]; simp)
    rw [hnone] at hopen
    exact absurd hopen (by simp)
  obtain ⟨t, tr, r, ht', htr, -, hr⟩ :=
    hall 42 crossedStops s 1 (by decide) hs hstopped (by rw [ht]; simp)
  obtain rfl := Option.some.inj (ht.symm.trans ht')
  rw [htr, Option.map_some, hr] at hactive
  exact absurd hactive (by simp)

end RdkPerf

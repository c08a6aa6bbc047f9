import RdkPerf.Proof.OpenRecords

/-!
# No call follows an object that is not there

`GetTree`, `NewTree` and the process map answer `NULL` for what they do not have, and every entry
point has to look. They all do, but `RDKPerf_ReportThread`, which follows what `RDKPerf_FindProcess`
answers (`follows_nothing_missing_iff`).

What a caller may stop is said of the trace alone: a handle that a start answered, that was not
stopped since, and whose thread and process nobody closed. Reports may come in between, as the
removal at a report spares a thread with an open call (`OpenCall.keeps`).
-/

namespace RdkPerf

open Lib

variable {pID : pid_t} {s : InProc} {L : Ledger} {op : Op} {ops pre since : List Op}
  {tID : pthread_t} {h : Handle} {caller : Caller} {α : Type}

/-! ## What a trace says of a handle, and of the map -/

/-- The handle was answered to a start of the thread, and `since` are the calls after it; none of
    them stops the handle. -/
def OpenSince (pre : List Op) (h : Handle) (opener : Caller) (since : List Op) : Prop :=
  (∃ before szName nThresholdInUS env,
    pre = before ++ .start opener szName nThresholdInUS env :: since ∧
      before.countP Op.isStart = h) ∧
  ∀ op ∈ since, Spares op h

/-- The calls that may come after `pre`. -/
def Offered (pID : pid_t) (pre : List Op) : Op → Prop
  | .stop _ h _ =>
    ∃ opener since, OpenSince pre h opener since ∧ ∀ op ∈ since, ¬ op.Closes pID opener.tid
  | .setThreshold _ h _ => ∃ opener since, OpenSince pre h opener since
  | .start _ _ _ _ => True
  | .reportProcess _ _ _ => True
  | .reportThread _ _ => True
  | .closeThread _ _ => True
  | .closeProcess _ _ => True

/-- The process is in its map: something was started, and the process was not closed since. -/
def Registered (pID : pid_t) (pre : List Op) : Prop :=
  ∃ before op since, pre = before ++ op :: since ∧ op.isStart = true ∧
    ∀ op' ∈ since, ∀ caller, op' ≠ .closeProcess caller pID

/-- A report of a thread finds the process. -/
def FindsProcess (pID : pid_t) (pre : List Op) : Op → Prop
  | .reportThread _ _ => Registered pID pre
  | .start _ _ _ _ => True
  | .stop _ _ _ => True
  | .setThreshold _ _ _ => True
  | .reportProcess _ _ _ => True
  | .closeThread _ _ => True
  | .closeProcess _ _ => True

/-- A null pointer was followed, or the top of an empty stack was read. -/
def FollowsMissing (r : Except Fault α) : Prop :=
  r = .error .nullPointer ∨ r = .error .emptyStack

theorem registered_concat : Registered pID (pre ++ [op]) ↔
    op.isStart = true ∨ Registered pID pre ∧ ∀ caller, op ≠ .closeProcess caller pID := by
  constructor
  · rintro ⟨before, op', since, hsplit, hstart, hkept⟩
    rcases List.eq_nil_or_concat since with rfl | ⟨since', last, rfl⟩
    · obtain ⟨-, hlast⟩ := List.append_inj' hsplit rfl
      obtain rfl := (List.cons.inj hlast).1
      exact Or.inl hstart
    · rw [List.concat_eq_append, ← List.cons_append, ← List.append_assoc] at hsplit
      obtain ⟨rfl, hlast⟩ := List.append_inj' hsplit rfl
      obtain rfl := (List.cons.inj hlast).1
      refine Or.inr ⟨⟨before, op', since', rfl, hstart, ?_⟩, hkept op (by simp)⟩
      intro op'' hmem
      exact hkept op'' (by simp [hmem])
  · rintro (hstart | ⟨⟨before, op', since, rfl, hstart, hkept⟩, hop⟩)
    · exact ⟨pre, op, [], rfl, hstart, by simp⟩
    · refine ⟨before, op', since ++ [op], by simp, hstart, ?_⟩
      intro op'' hmem
      rcases List.mem_append.mp hmem with hmem | hmem
      · exact hkept op'' hmem
      · rw [List.mem_singleton.mp hmem]
        exact hop

/-- The ledger keeps what the trace says of the map, -/
theorem Ledger.run_registered : (Ledger.run pID pre).registered = true ↔ Registered pID pre := by
  induction pre using List.reverseRecOn with
  | nil =>
    refine iff_of_false (by simp [Ledger.run, Ledger.init]) ?_
    rintro ⟨before, op, since, hnil, -⟩
    exact absurd hnil (by simp)
  | append_singleton pre op ih =>
    rw [Ledger.run_concat, registered_concat, ← ih]
    cases op with
    | closeProcess caller p =>
      simp only [Ledger.step]
      split <;> simp_all [Op.isStart]
    | reportProcess caller p env =>
      simp only [Ledger.step]
      split <;> simp [Op.isStart, Ledger.reportThreads]
    | _ => simp [Ledger.step, Op.isStart]

/-- and how many handles were handed out. -/
theorem Ledger.run_next : (Ledger.run pID pre).next = pre.countP Op.isStart := by
  induction pre using List.reverseRecOn with
  | nil => rfl
  | append_singleton pre op ih =>
    rw [Ledger.run_concat, List.countP_append, ← ih]
    cases op with
    | closeProcess caller p =>
      simp only [Ledger.step]
      split <;> simp [Op.isStart]
    | reportProcess caller p env =>
      simp only [Ledger.step]
      split <;> simp [Op.isStart, Ledger.reportThreads]
    | _ => simp [Ledger.step, Op.isStart]

/-! ## What may be stopped is open -/

/-- The calls since the start of a handle leave it open, if none of them stops it or closes its
    thread. -/
theorem run_openCall {before : List Op} {szName : CString} {nThresholdInUS : Option UInt32}
    {env : Env}
    (hs : InProc.run pID (before ++ .start caller szName nThresholdInUS env :: since) = .ok s)
    (hspare : ∀ op ∈ since, Spares op (before.countP Op.isStart))
    (hclose : ∀ op ∈ since, ¬ op.Closes pID caller.tid) :
    ∃ calls, OpenCall
      (Ledger.run pID (before ++ .start caller szName nThresholdInUS env :: since))
      caller.tid (before.countP Op.isStart) calls := by
  induction since using List.reverseRecOn generalizing s with
  | nil =>
    have hnext : (Ledger.run pID before).next = before.countP Op.isStart := Ledger.run_next
    rw [Ledger.run_concat, ← hnext]
    exact ⟨_, Sim.openCall_start caller szName nThresholdInUS env⟩
  | append_singleton since op ih =>
    rw [← List.cons_append, ← List.append_assoc] at hs ⊢
    obtain ⟨s₁, hs₁, -⟩ := foldlM_concat_ok.mp hs
    obtain ⟨calls, ho⟩ := ih hs₁ (fun op' hop' => hspare op' (by simp [hop']))
      (fun op' hop' => hclose op' (by simp [hop']))
    rw [Ledger.run_concat]
    rcases (InProc.run_sim hs₁).openCall_step ho (hspare op (by simp)) with ho' | hgone
    · exact ⟨calls, ho'⟩
    · exact absurd hgone (ho.keeps (hclose op (by simp)))

theorem mem_opened_kept (hh : h ∈ L.opened) (hspare : Spares op h) :
    h ∈ (L.step pID op).opened := by
  cases op with
  | start caller szName nThresholdInUS env => exact List.mem_cons_of_mem _ hh
  | stop caller hPerf env =>
    refine List.mem_filter.mpr ⟨hh, ?_⟩
    apply decide_eq_true
    rintro rfl
    exact hspare caller env rfl
  | setThreshold caller hPerf nThresholdInUS => exact hh
  | reportProcess caller p env =>
    simp only [Ledger.step]
    split
    · exact hh
    · exact hh
  | reportThread caller u => exact hh
  | closeThread caller u => exact hh
  | closeProcess caller p =>
    simp only [Ledger.step]
    split
    · exact hh
    · exact hh

theorem run_opened {opener : Caller} (h' : OpenSince pre h opener since) :
    h ∈ (Ledger.run pID pre).opened := by
  obtain ⟨⟨before, szName, nThresholdInUS, env, rfl, rfl⟩, hspare⟩ := h'
  induction since using List.reverseRecOn with
  | nil =>
    have hnext : (Ledger.run pID before).next = before.countP Op.isStart := Ledger.run_next
    rw [Ledger.run_concat, ← hnext]
    exact List.mem_cons_self
  | append_singleton since op ih =>
    rw [← List.cons_append, ← List.append_assoc, Ledger.run_concat]
    apply mem_opened_kept
    · exact ih fun op' hop' => hspare op' (by simp [hop'])
    · exact hspare op (by simp)

/-- A call that may come next has an outcome, if it names what it starts and finds the process when
    it needs it. -/
theorem Offered.legal (hop : Offered pID pre op) (hs : InProc.run pID pre = .ok s)
    (hname : op.named) (hfinds : FindsProcess pID pre op) : Legal (Ledger.run pID pre) op := by
  cases op with
  | stop caller hPerf env =>
    obtain ⟨opener, since, ⟨⟨before, szName, nThresholdInUS, env', rfl, rfl⟩, hspare⟩, hclose⟩ := hop
    obtain ⟨calls, ho⟩ := run_openCall hs hspare hclose
    exact ⟨opener.tid, calls, ho⟩
  | setThreshold caller hPerf nThresholdInUS =>
    obtain ⟨opener, since, hopen⟩ := hop
    exact run_opened hopen
  | reportThread caller u => exact Ledger.run_registered.mpr hfinds
  | start caller szName nThresholdInUS env => exact of_decide_eq_true (p := szName.bytes ≠ []) hname
  | reportProcess caller p env => trivial
  | closeThread caller u => trivial
  | closeProcess caller p => trivial

theorem step_missing (hs : InProc.run pID pre = .ok s) (hop : ¬ FindsProcess pID pre op) :
    s.step op = .error .nullPointer := by
  cases op with
  | reportThread caller u =>
    apply (InProc.run_sim hs).reportThread_missing
    exact Bool.eq_false_iff.mpr (mt Ledger.run_registered.mp hop)
  | stop caller hPerf env => exact absurd trivial hop
  | setThreshold caller hPerf nThresholdInUS => exact absurd trivial hop
  | start caller szName nThresholdInUS env => exact absurd trivial hop
  | reportProcess caller p env => exact absurd trivial hop
  | closeThread caller u => exact absurd trivial hop
  | closeProcess caller p => exact absurd trivial hop

/-! ## Runs -/

theorem step_unnamed (hs : InProc.run pID pre = .ok s) (hop : ¬ op.named) :
    s.step op = .error .clearedString := by
  cases op with
  | start caller szName nThresholdInUS env =>
    refine (InProc.run_sim hs).start_unnamed ?_
    by_contra hne
    exact hop (decide_eq_true (show szName.bytes ≠ [] from hne))
  | stop _ _ _ | setThreshold _ _ _ | reportProcess _ _ _ | reportThread _ _ | closeThread _ _
  | closeProcess _ _ => exact absurd rfl hop

theorem run_error_concat {pID : pid_t} {e : Fault} (h : InProc.run pID ops = .error e) (op : Op) :
    InProc.run pID (ops ++ [op]) = .error e := by
  unfold InProc.run at h ⊢
  rw [List.foldlM_append, h]
  rfl

theorem run_ok_concat (hs : InProc.run pID ops = .ok s) (op : Op) :
    InProc.run pID (ops ++ [op]) = s.step op := by
  unfold InProc.run at hs ⊢
  rw [List.foldlM_append, hs]
  show (s.step op >>= pure) = _
  exact bind_pure _

/-- The calls that are reached find the process when they need it: those that come before the first
    start without a name. -/
def ReachedFindProcess (pID : pid_t) (ops : List Op) : Prop :=
  ∀ pre op post, ops = pre ++ op :: post → (∀ op' ∈ pre, op'.named) → FindsProcess pID pre op

/-- A run of such calls has an outcome, or ends at a start without a name, or at a report of a thread
    whose process is not in the map. -/
theorem run_offered (h : ∀ pre op post, ops = pre ++ op :: post → Offered pID pre op) :
    ((∃ s, InProc.run pID ops = .ok s) ∧ (∀ op ∈ ops, op.named) ∧ ReachedFindProcess pID ops) ∨
      (InProc.run pID ops = .error .clearedString ∧ (¬ ∀ op ∈ ops, op.named) ∧
        ReachedFindProcess pID ops) ∨
      (InProc.run pID ops = .error .nullPointer ∧ ¬ ReachedFindProcess pID ops) := by
  induction ops using List.reverseRecOn with
  | nil => exact Or.inl ⟨⟨_, rfl⟩, by simp, forall_places_nil⟩
  | append_singleton ops op ih =>
    obtain ⟨hops, hop⟩ := forall_places_concat.mp h
    unfold ReachedFindProcess at ih ⊢
    rw [forall_places_concat]
    rcases ih hops with ⟨⟨s, hs⟩, hnames, hfinds⟩ | ⟨herr, hnames, hfinds⟩ | ⟨herr, hfinds⟩
    · by_cases hfind : FindsProcess pID ops op
      · by_cases hname : op.named
        · obtain ⟨s', hs', -⟩ := (InProc.run_sim hs).step_ok (hop.legal hs hname hfind)
          refine Or.inl ⟨⟨s', (run_ok_concat hs op).trans hs'⟩, ?_, hfinds, fun _ => hfind⟩
          exact List.forall_mem_append.mpr ⟨hnames, by simpa using hname⟩
        · refine Or.inr (Or.inl ⟨(run_ok_concat hs op).trans (step_unnamed hs hname), ?_, hfinds,
            fun _ => hfind⟩)
          exact fun hall => hname (hall op (by simp))
      · refine Or.inr (Or.inr ⟨(run_ok_concat hs op).trans (step_missing hs hfind), ?_⟩)
        exact fun hall => hfind (hall.2 hnames)
    · refine Or.inr (Or.inl ⟨run_error_concat herr op, fun hall => hnames ?_, hfinds, ?_⟩)
      · exact fun op' hop' => hall op' (by simp [hop'])
      · exact fun hall => absurd hall hnames
    · exact Or.inr (Or.inr ⟨run_error_concat herr op, fun hall => hfinds hall.1⟩)

/-- **No call follows a missing object, but a report of a thread in a process that is not in the
    map.** -/
theorem follows_nothing_missing_iff (pID : pid_t) (ops : List Op)
    (h : ∀ pre op post, ops = pre ++ op :: post → Offered pID pre op) :
    ¬ FollowsMissing (InProc.run pID ops) ↔ ReachedFindProcess pID ops := by
  rcases run_offered h with ⟨⟨s, hs⟩, -, hfinds⟩ | ⟨herr, -, hfinds⟩ | ⟨herr, hfinds⟩
  · refine iff_of_true ?_ hfinds
    rw [hs]
    rintro (he | he)
    · exact absurd he (by simp)
    · exact absurd he (by simp)
  · refine iff_of_true ?_ hfinds
    rw [herr]
    rintro (he | he)
    · exact absurd he (by simp)
    · exact absurd he (by simp)
  · refine iff_of_false ?_ hfinds
    intro hnot
    exact hnot (Or.inl herr)

/-- A call, a report of its thread, and its stop. -/
def reportedCall : List Op :=
  [.start threadA nameF none {}, .reportThread threadA 1, .stop threadA 0 {}]

theorem reportedCall_offered :
    ∀ pre op post, reportedCall = pre ++ op :: post → Offered 42 pre op := by
  rw [reportedCall, forall_places_cons, forall_places_cons, forall_places_cons]
  refine ⟨trivial, trivial, ⟨threadA, [.reportThread threadA 1], ?_, ?_⟩, forall_places_nil⟩
  · exact ⟨⟨[], nameF, none, {}, rfl, rfl⟩, by simp [Spares]⟩
  · simp [Op.Closes]

theorem reportedCall_follows :
    ¬ FollowsMissing (InProc.run 42 reportedCall) ↔ ReachedFindProcess 42 reportedCall :=
  follows_nothing_missing_iff 42 reportedCall reportedCall_offered

/-- A report of a thread before anything was started. -/
theorem reportThread_missing_process : ¬ ∀ (pID : pid_t) (ops : List Op),
    (∀ pre op post, ops = pre ++ op :: post → Offered pID pre op) →
      ¬ FollowsMissing (InProc.run pID ops) := by
  intro hall
  have hoffered : ∀ pre op post,
      [Op.reportThread threadA 1] = pre ++ op :: post → Offered 42 pre op := by
    rw [forall_places_cons]
    exact ⟨trivial, forall_places_nil⟩
  exact hall 42 [.reportThread threadA 1] hoffered (Or.inl rfl)

end RdkPerf

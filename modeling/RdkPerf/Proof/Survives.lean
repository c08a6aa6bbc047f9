import RdkPerf.Proof.DeepReports
import RdkPerf.Proof.EntryBounds

/-!
# What the service survives

The trees are well formed, and one client does not see another, in every run that goes through
inside the buffers of the program; and a run does exactly if each message can be handled where the
service meets it (`Service.CanHandle`). One that cannot takes all clients with it: a thread's name
that is too long leaves the array of its tree and reaches the stack of active nodes, a call without
a name is written through a null pointer, a report that is too deep leaves its line.
-/

namespace RdkPerf

open Lib

/-! ## The trees -/

/-- Each message can be handled where the service meets it: the strings it needs are there and have
    room, and what it has reported is not too deep. -/
def Service.CanHandle (ds : List Service.Delivery) : Prop :=
  ∀ pre d post, ds = pre ++ d :: post → ∀ s, Service.run pre = .ok s →
    d.msg.Legal s.mem.view ∧ d.msg.Shallow s.mem.view

/-- Each call has what it uses, and what it prints is not too deep. -/
def InProc.CanRun (pID : pid_t) (ops : List Op) : Prop :=
  ∀ pre op post, ops = pre ++ op :: post → Legal (Ledger.run pID pre) op ∧ op.Shallow pID pre

/-- **The representation invariant.** A run ends, inside the buffers and with well-formed trees,
    exactly if each of its steps has what it needs; no order of messages or calls breaks a tree. -/
theorem trees_wellFormed_iff (ds : List Service.Delivery) (pID : pid_t) (ops : List Op) :
    ((∃ s, Service.run ds = .ok s ∧ s.mem.LinesFit ∧ WellFormed s.mem) ↔
      Service.CanHandle ds) ∧
    ((∃ s, InProc.run pID ops = .ok s ∧ s.mem.LinesFit ∧ WellFormed s.mem) ↔
      InProc.CanRun pID ops) := by
  constructor
  · constructor
    · rintro ⟨s, hs, hfit, -⟩
      exact Service.run_fits_iff.mp ⟨s, hs, hfit⟩
    · intro h
      obtain ⟨s, hs, hfit⟩ := Service.run_fits_iff.mpr h
      obtain ⟨w, hw⟩ := Service.run_rep hs
      exact ⟨s, hs, hfit, hw.wellFormed⟩
  · constructor
    · rintro ⟨s, hs, hfit, -⟩
      exact InProc.run_fits_iff.mp ⟨s, hs, hfit⟩
    · intro h
      obtain ⟨s, hs, hfit⟩ := InProc.run_fits_iff.mpr h
      exact ⟨s, hs, hfit, (InProc.run_sim hs).rep.wellFormed⟩

/-- A hundred bytes of thread name. -/
def hundredBytes : Service.Delivery := ⟨Service.namedEntry (List.replicate 100 65), {}⟩

/-- The service has no trees to show then, and whatever the object of the new tree was, the copy of
    the thread's name has left of its stack, `m_activeNode`, nothing but the last twelve bytes. -/
theorem longThreadName_unformed :
    ¬ (∃ s, Service.run [hundredBytes] = .ok s ∧ s.mem.LinesFit ∧ WellFormed s.mem) ∧
    ∀ object : TreeObject, ∃ touched, Service.handleEntryTouches Service.State.init.mem object
        hundredBytes.msg = touched ∧ touched.written = [⟨16, 100⟩] ∧
      touched.after.slice (offsetOf Layout.perfTree 5) 68 = List.replicate 68 65 := by
  constructor
  · rintro ⟨s, hs, -⟩
    have hnone : (Service.run [hundredBytes]).toOption.isSome = false := by decide
    rw [hs] at hnone
    exact absurd hnone (by simp [Except.toOption])
  · intro object
    have hbytes : hundredBytes.msg.threadNameBytes = List.replicate 100 65 := by decide
    refine ⟨_, Service.handleEntryTouches_new object (by decide), ?_, ?_⟩
    · show [(⟨16, hundredBytes.msg.threadNameBytes.length⟩ : Span)] = _
      rw [hbytes, List.length_replicate]
    · show (object.copyThreadName hundredBytes.msg).slice _ _ = _
      rw [TreeObject.copyThreadName, hbytes]
      have hall : (object.write Layout.threadNameAt (List.replicate 100 65)).slice
          Layout.threadNameAt (32 + 68) = List.replicate 100 65 :=
        Buf.slice_write object (by simp) (by decide)
      -- the array and the two counters take 32 of the hundred
      rw [Buf.slice_add] at hall
      have hstack := congrArg (List.drop 32) hall
      rwa [List.drop_left' (Buf.length_slice _ _ _), List.drop_replicate] at hstack

/-! ## One client -/

namespace World

variable {w w' : World} {pID p : pid_t} {tID t : pthread_t} {msg : PerfMessage} {b : Bool}

/-- What concerns a thread gives no other thread a tree. -/
theorem handle_alone (hmsg : msg.concerns pID tID = true)
    (hreg : ∀ {t}, w.registered pID = false → w.tree pID t = none)
    (hother : ¬ (p = pID ∧ t = tID)) (hw : w.handle msg = .ok (w', b))
    (hnone : w.tree p t = none) : w'.tree p t = none := by
  rcases of_decide_eq_true hmsg with hthread | hprocess
  · rw [(World.handle_local hthread).frame hw hother, hnone]
  · obtain ⟨f, hf, hprocess⟩ := World.handle_process hprocess
    obtain ⟨w₁, b₁, hw₁, htree⟩ := hprocess w hreg
    obtain ⟨rfl, -⟩ := Prod.mk.inj (Except.ok.inj (hw.symm.trans hw₁))
    rw [htree, hnone, hf]
    split <;> rfl

end World

/-- What concerns a thread reports nothing deeper where the thread is alone. -/
theorem PerfMessage.Shallow.alone {msg : PerfMessage} {pID : pid_t} {tID : pthread_t}
    {tree tree' : pid_t → pthread_t → Option CallTree} (h : msg.Shallow tree)
    (hsame : tree' pID tID = tree pID tID)
    (hother : ∀ p t, ¬ (p = pID ∧ t = tID) → tree' p t = none) : msg.Shallow tree' := by
  have htree : ∀ {p t ct}, tree' p t = some ct → tree p t = some ct := by
    intro p t ct hct
    by_cases hself : p = pID ∧ t = tID
    · obtain ⟨rfl, rfl⟩ := hself
      rwa [← hsame]
    · rw [hother p t hself] at hct
      cases hct
  unfold Shallow at h ⊢
  cases htype : MessageType.ofCode msg.type with
  | none => trivial
  | some type =>
    rw [htype] at h
    cases type with
    | eReportThread => exact fun ct hct => h ct (htree hct)
    | eReportProcess => exact fun t ct hct => h t ct (htree hct)
    | _ => trivial

namespace Service

variable {pID : pid_t} {tID : pthread_t} {ds : List Delivery} {s s' : State}

/-- In the run of its share a thread has the only tree. -/
theorem run_alone (hs : run ds = .ok s) (hall : ∀ d ∈ ds, d.msg.concerns pID tID = true)
    {p : pid_t} {t : pthread_t} (hother : ¬ (p = pID ∧ t = tID)) : s.mem.view p t = none := by
  obtain ⟨ws, hws, hS⟩ := run_sim hs
  rw [hS.rep.view]
  clear hS hs
  induction ds using List.reverseRecOn generalizing ws with
  | nil =>
    obtain rfl := Except.ok.inj hws
    rfl
  | append_singleton ds d ih =>
    obtain ⟨ws₁, hws₁, hstep⟩ := foldlM_concat_ok.mp hws
    obtain ⟨⟨w', b⟩, hhandle, hws'⟩ := bind_eq_ok.mp hstep
    obtain rfl := Except.ok.inj hws'
    obtain ⟨s₁, -, hS₁⟩ := run_sim_back hws₁
    exact World.handle_alone (hall d (by simp)) hS₁.rep.tree_none_of_unregistered hother hhandle
      (ih (fun d hd => hall d (by simp [hd])) ws₁ hws₁)

theorem Agree.view (h : Agree pID tID s s') : s.mem.view pID tID = s'.mem.view pID tID := by
  obtain ⟨ws, ws', hS, hS', htree, -⟩ := h
  rw [hS.rep.view, hS'.rep.view, htree]

/-- **Isolation.** The tree of a thread and the answers to its own messages are what those that
    concern it make them, exactly if each message of the run can be handled. -/
theorem isolated_iff (pID : pid_t) (tID : pthread_t) (ds : List Delivery) :
    (∃ s s', run ds = .ok s ∧ s.mem.LinesFit ∧
      run (ds.filter (·.msg.concerns pID tID)) = .ok s' ∧ s'.mem.LinesFit ∧
        s'.mem.view pID tID = s.mem.view pID tID ∧
        (s'.mem.treePtr pID tID = none ↔ s.mem.treePtr pID tID = none) ∧
        ownAnswers pID tID s'.answers = ownAnswers pID tID s.answers) ↔ CanHandle ds := by
  constructor
  · rintro ⟨s, -, hs, hfit, -⟩
    exact run_fits_iff.mp ⟨s, hs, hfit⟩
  · intro h
    obtain ⟨s, hs, hfit⟩ := run_fits_iff.mpr h
    obtain ⟨s', hs', hA⟩ := run_agrees pID tID hs
    refine ⟨s, s', hs, hfit, hs', ?_, hA.view.symm, ?_⟩
    · refine (run_linesFit_iff hs').mpr fun pre d post hsplit s₁' hs₁' => ?_
      obtain ⟨pre, post, rfl, rfl, hd⟩ := place_of_filter hsplit
      obtain ⟨s₁, hs₁, -⟩ := foldlM_append_ok.mp hs
      obtain ⟨s₂, hs₂, hA₁⟩ := run_agrees pID tID hs₁
      obtain rfl := Except.ok.inj (hs₁'.symm.trans hs₂)
      refine (h pre d post rfl s₁ hs₁).2.alone hA₁.view.symm fun p t hother => ?_
      exact run_alone hs₁' (fun d hd => (List.mem_filter.mp hd).2) hother
    · obtain ⟨ws, ws', hS, hS', htree, hans⟩ := hA
      constructor
      · rw [hS'.rep.treePtr_none_iff, hS.rep.treePtr_none_iff, htree]
      · rw [hS'.answers, hS.answers, hans]

/-- Process 43 enters and leaves `f`, and in between process 42 sends a name of a hundred bytes. -/
def overrunBetween : List Delivery :=
  handed ⟨threadA, 43⟩ .eEntry nameF ++ hundredBytes :: handed ⟨threadA, 43⟩ .eExit nameF

theorem overrunBetween_notIsolated :
    ¬ (∃ s s', run overrunBetween = .ok s ∧ s.mem.LinesFit ∧
      run (overrunBetween.filter (·.msg.concerns 43 1)) = .ok s' ∧ s'.mem.LinesFit ∧
        s'.mem.view 43 1 = s.mem.view 43 1 ∧
        (s'.mem.treePtr 43 1 = none ↔ s.mem.treePtr 43 1 = none) ∧
        ownAnswers 43 1 s'.answers = ownAnswers 43 1 s.answers) ∧
    ∃ s', run (overrunBetween.filter (·.msg.concerns 43 1)) = .ok s' ∧
      (s'.mem.treePtr 43 1).isSome = true ∧ s'.answers.map Prod.snd = [true, true] := by
  constructor
  · rintro ⟨s, -, hs, -⟩
    have hnone : (run overrunBetween).toOption.bind (fun s => some s.answers.length) = none := by
      decide
    rw [hs] at hnone
    exact absurd hnone (by simp [Except.toOption])
  · obtain ⟨s', hs', hshows⟩ := ok_of_toOption_bind
      (show (run (overrunBetween.filter (·.msg.concerns 43 1))).toOption.bind (fun s =>
        some ((s.mem.treePtr 43 1).isSome, s.answers.map Prod.snd)) =
          some (true, [true, true]) by decide)
    obtain ⟨htree, hanswers⟩ := Prod.mk.inj (Option.some.inj hshows)
    exact ⟨s', hs', htree, hanswers⟩

end Service
end RdkPerf

import RdkPerf.Proof.Representation

/-!
# One client of the service does not see another

A message is a thread's own, or it is about the whole process, or it is none of that thread's
business (`PerfMessage.concerns`). The tree of a thread, and what its own messages are answered,
come out of the first two kinds alone, in a run that the service survives (`Service.run_agrees`).

The process map is not what is isolated: which thread of a process comes first decides who
registers it. So the two runs compared agree on one tree and on nothing else, and what makes that
enough is that a registered tree has a registered process.
-/

namespace RdkPerf

open Lib

namespace PerfMessage

/-- The thread a message comes from and is about. -/
def threadOf (msg : PerfMessage) : Option (pid_t × pthread_t) :=
  match MessageType.ofCode msg.type with
  | some .eEntry => some (msg.entry.pID, msg.entry.tID)
  | some .eThreshold => some (msg.threshold.pID, msg.threshold.tID)
  | some .eExit => some (msg.exit.pID, msg.exit.tID)
  | some .eReportThread => some (msg.report_thread.pID, msg.report_thread.tID)
  | some .eCloseThread => some (msg.close_thread.pID, msg.close_thread.tID)
  | _ => none

/-- The process a message is about as a whole. -/
def processOf (msg : PerfMessage) : Option pid_t :=
  match MessageType.ofCode msg.type with
  | some .eReportProcess => some msg.report_process.pID
  | some .eCloseProcess => some msg.close_process.pID
  | _ => none

def isOwn (pID : pid_t) (tID : pthread_t) (msg : PerfMessage) : Bool :=
  msg.threadOf = some (pID, tID)

def concerns (pID : pid_t) (tID : pthread_t) (msg : PerfMessage) : Bool :=
  msg.threadOf = some (pID, tID) ∨ msg.processOf = some pID

end PerfMessage

/-! ## One message -/

/-- Two worlds `w` and `v` met the same message, and it did the same to both: nothing, or it put
    the same tree at one thread. -/
inductive SameEdit (p : pid_t) (t : pthread_t) (w v : World) :
    Except Fault (World × Bool) → Except Fault (World × Bool) → Prop where
  | failed (e : Fault) : SameEdit p t w v (.error e) (.error e)
  | kept (b : Bool) : SameEdit p t w v (.ok (w, b)) (.ok (v, b))
  | put {w₁ v₁ : World} (ct : Option CallTree) (b : Bool) (hw : w₁.tree = (w.set p t ct).tree)
      (hv : v₁.tree = (v.set p t ct).tree) : SameEdit p t w v (.ok (w₁, b)) (.ok (v₁, b))

/-- The handler changes one tree, and reads no other. -/
def LocalAt (p : pid_t) (t : pthread_t) (handler : World → Except Fault (World × Bool)) : Prop :=
  ∀ w v, w.tree p t = v.tree p t → SameEdit p t w v (handler w) (handler v)

namespace World

theorem handleEntry_local (msg : EntryMessage) : LocalAt msg.pID msg.tID (·.handleEntry msg) := by
  intro w v h
  have hinit : w.treeOrInit msg.pID msg.tID (fitThreadName msg.szThreadName) =
      v.treeOrInit msg.pID msg.tID (fitThreadName msg.szThreadName) := by
    rw [treeOrInit, treeOrInit, h]
  simp only [handleEntry, hinit]
  cases v.treeOrInit msg.pID msg.tID (fitThreadName msg.szThreadName) with
  | error e => exact .failed e
  | ok ct =>
    cases msg.szName with
    | none => exact .failed .overread
    | some szName =>
      by_cases hne : szName = []
      · simp only [if_pos hne]
        exact .failed .clearedString
      · simp only [if_neg hne]
        exact .put (some _) true rfl rfl

theorem handleThreshold_local (msg : ThresholdMessage) :
    LocalAt msg.pID msg.tID (fun w => .ok (w.handleThreshold msg)) := by
  intro w v h
  simp only [handleThreshold, h]
  cases v.tree msg.pID msg.tID with
  | none => exact .kept false
  | some ct =>
    by_cases hthr : msg.nThresholdInUS > 0
    · simp only [if_pos hthr]
      exact .put (some _) true rfl rfl
    · simp only [if_neg hthr]
      exact .kept false

theorem handleExit_local (msg : ExitMessage) : LocalAt msg.pID msg.tID (·.handleExit msg) := by
  intro w v h
  simp only [handleExit, h]
  cases v.tree msg.pID msg.tID with
  | none => exact .kept false
  | some ct =>
    cases msg.szName with
    | none => exact .failed .overread
    | some szName =>
      by_cases hname : ct.active.label = szName
      · simp only [if_pos hname]
        exact .put (some _) true rfl rfl
      · simp only [if_neg hname]
        exact .kept false

theorem handleReportThread_local (msg : ThreadMessage) :
    LocalAt msg.pID msg.tID (fun w => .ok (w.handleReportThread msg)) := by
  intro w v h
  simp only [handleReportThread, h]
  cases v.tree msg.pID msg.tID with
  | none => exact .kept false
  | some ct => exact .put (some ct.report) true rfl rfl

theorem handleCloseThread_local (msg : ThreadMessage) :
    LocalAt msg.pID msg.tID (fun w => .ok (w.handleCloseThread msg)) := by
  intro w v h
  simp only [handleCloseThread, h]
  exact .put none _ rfl rfl

/-- A message of a thread is handled by a handler that is local to the thread. -/
theorem handle_local {msg : PerfMessage} {p : pid_t} {t : pthread_t}
    (h : msg.threadOf = some (p, t)) : LocalAt p t (·.handle msg) := by
  unfold PerfMessage.threadOf at h
  unfold handle
  cases htype : MessageType.ofCode msg.type with
  | none => simp [htype] at h
  | some type =>
    rw [htype] at h
    cases type with
    | eEntry =>
      obtain ⟨rfl, rfl⟩ := Prod.mk.inj (Option.some.inj h)
      exact handleEntry_local msg.entry
    | eThreshold =>
      obtain ⟨rfl, rfl⟩ := Prod.mk.inj (Option.some.inj h)
      exact handleThreshold_local msg.threshold
    | eExit =>
      obtain ⟨rfl, rfl⟩ := Prod.mk.inj (Option.some.inj h)
      exact handleExit_local msg.exit
    | eReportThread =>
      obtain ⟨rfl, rfl⟩ := Prod.mk.inj (Option.some.inj h)
      exact handleReportThread_local msg.report_thread
    | eCloseThread =>
      obtain ⟨rfl, rfl⟩ := Prod.mk.inj (Option.some.inj h)
      exact handleCloseThread_local msg.close_thread
    | _ => exact absurd h (by simp)

/-- What a message about a process does to the trees, each on its own. -/
theorem handle_process {msg : PerfMessage} {p : pid_t} (h : msg.processOf = some p) :
    ∃ f : Option CallTree → Option CallTree, f none = none ∧
      ∀ (w : World), (∀ {t}, w.registered p = false → w.tree p t = none) →
        ∃ w₁ b, w.handle msg = .ok (w₁, b) ∧
          ∀ p' t, w₁.tree p' t = if p' = p then f (w.tree p' t) else w.tree p' t := by
  unfold PerfMessage.processOf at h
  unfold handle
  cases htype : MessageType.ofCode msg.type with
  | none => simp [htype] at h
  | some type =>
    rw [htype] at h
    cases type with
    | eReportProcess =>
      obtain rfl := Option.some.inj h
      refine ⟨fun ct => ct.bind fun ct => if ct.inactive then none else some ct.report, rfl,
        fun w hreg => ⟨(w.handleReportProcess msg.report_process).1, _, rfl, fun p' t => ?_⟩⟩
      unfold handleReportProcess
      split
      · exact reportProcess_tree w _ p' t
      · next hun =>
        -- a process that is not registered has no trees to report
        split
        · next hp =>
          rw [hp, hreg (Bool.eq_false_iff.mpr hun)]
          rfl
        · rfl
    | eCloseProcess =>
      obtain rfl := Option.some.inj h
      exact ⟨fun _ => none, rfl, fun w _ => ⟨_, _, rfl, fun p' t => removeProcess_tree w _ p' t⟩⟩
    | _ => exact absurd h (by simp)

/-- A message of no known type is answered, and changes nothing. -/
theorem handle_ignored {msg : PerfMessage} (hthread : msg.threadOf = none)
    (hprocess : msg.processOf = none) (w : World) : w.handle msg = .ok (w, false) := by
  unfold PerfMessage.threadOf at hthread
  unfold PerfMessage.processOf at hprocess
  unfold handle
  cases htype : MessageType.ofCode msg.type with
  | none => rfl
  | some type =>
    rw [htype] at hthread hprocess
    cases type with
    | eNoMessage | eExitQueue | eMaxType => rfl
    | eEntry | eThreshold | eExit | eReportThread | eCloseThread => exact absurd hthread (by simp)
    | eReportProcess | eCloseProcess => exact absurd hprocess (by simp)

end World

section OneMessage

variable {w v w₁ : World} {pID p : pid_t} {tID t : pthread_t} {msg : PerfMessage} {b : Bool}

theorem LocalAt.frame {handler : World → Except Fault (World × Bool)} (h : LocalAt p t handler)
    (hw : handler w = .ok (w₁, b)) (hne : ¬ (pID = p ∧ tID = t)) :
    w₁.tree pID tID = w.tree pID tID := by
  have hedit := h w w rfl
  rw [hw] at hedit
  cases hedit with
  | kept => rfl
  | put ct _ htree => rw [htree, World.set_tree, if_neg hne]

theorem LocalAt.same {handler : World → Except Fault (World × Bool)} (h : LocalAt p t handler)
    (hw : handler w = .ok (w₁, b)) (htree : w.tree p t = v.tree p t) :
    ∃ v₁, handler v = .ok (v₁, b) ∧ w₁.tree p t = v₁.tree p t := by
  have hedit := h w v htree
  rw [hw] at hedit
  generalize handler v = code at hedit
  cases hedit with
  | kept => exact ⟨v, rfl, htree⟩
  | put ct _ hw₁ hv₁ =>
    refine ⟨_, rfl, ?_⟩
    rw [hw₁, hv₁, World.set_tree, World.set_tree, if_pos ⟨rfl, rfl⟩, if_pos ⟨rfl, rfl⟩]

theorem PerfMessage.threadOf_of_processOf (h : msg.processOf = some p) : msg.threadOf = none := by
  unfold processOf at h
  unfold threadOf
  cases htype : MessageType.ofCode msg.type with
  | none => rfl
  | some type =>
    rw [htype] at h
    cases type with
    | eReportProcess | eCloseProcess => rfl
    | _ => exact absurd h (by simp)

/-- **A message that concerns the thread**, met by two worlds that have the thread's tree in
    common. -/
theorem World.handle_concerned (hmsg : msg.concerns pID tID = true)
    (hregw : ∀ {t}, w.registered pID = false → w.tree pID t = none)
    (hregv : ∀ {t}, v.registered pID = false → v.tree pID t = none)
    (htree : w.tree pID tID = v.tree pID tID) (hw : w.handle msg = .ok (w₁, b)) :
    ∃ v₁ b', v.handle msg = .ok (v₁, b') ∧ w₁.tree pID tID = v₁.tree pID tID ∧
      (msg.isOwn pID tID = true → b = b') := by
  rcases of_decide_eq_true hmsg with hthread | hprocess
  · obtain ⟨v₁, hv, h⟩ := (World.handle_local hthread).same hw htree
    exact ⟨v₁, b, hv, h, fun _ => rfl⟩
  · obtain ⟨f, -, hf⟩ := World.handle_process hprocess
    obtain ⟨w₂, b₂, hw₂, hwf⟩ := hf w hregw
    obtain ⟨v₁, b', hv, hvf⟩ := hf v hregv
    obtain ⟨rfl, rfl⟩ := Prod.mk.inj (Except.ok.inj (hw.symm.trans hw₂))
    refine ⟨v₁, b', hv, ?_, fun hown => ?_⟩
    · rw [hwf, hvf, if_pos rfl, if_pos rfl, htree]
    · -- a message about the process is nobody's own
      have hown := of_decide_eq_true hown
      rw [PerfMessage.threadOf_of_processOf hprocess] at hown
      exact absurd hown (by simp)

/-- **A message that does not** leaves the thread's tree alone. -/
theorem World.handle_unconcerned (hmsg : msg.concerns pID tID = false)
    (hreg : ∀ {p t}, w.registered p = false → w.tree p t = none)
    (hw : w.handle msg = .ok (w₁, b)) : w₁.tree pID tID = w.tree pID tID := by
  obtain ⟨hthread, hprocess⟩ := not_or.mp (of_decide_eq_false hmsg)
  cases hpt : msg.threadOf with
  | some pt =>
    refine (World.handle_local hpt).frame hw fun hk => hthread ?_
    rw [hpt, hk.1, hk.2]
  | none =>
    cases hp : msg.processOf with
    | some p =>
      obtain ⟨f, -, hf⟩ := World.handle_process hp
      obtain ⟨w₂, b₂, hw₂, hwf⟩ := hf w hreg
      obtain ⟨rfl, rfl⟩ := Prod.mk.inj (Except.ok.inj (hw.symm.trans hw₂))
      rw [hwf, if_neg]
      rintro rfl
      exact hprocess hp
    | none =>
      rw [World.handle_ignored hpt hp] at hw
      obtain ⟨rfl, -⟩ := Prod.mk.inj (Except.ok.inj hw)
      rfl

end OneMessage

/-! ## Runs -/

namespace Service

/-- The answers to the thread's own messages, each with its message. -/
def ownAnswers (pID : pid_t) (tID : pthread_t) (answers : List (Delivery × Bool)) :
    List (Delivery × Bool) :=
  answers.filter fun a => a.1.msg.isOwn pID tID

/-- What the run of all messages and the run of the thread's share have in common. -/
def Agree (pID : pid_t) (tID : pthread_t) (s s' : State) : Prop :=
  ∃ ws ws', Sim s ws ∧ Sim s' ws' ∧ ws.1.tree pID tID = ws'.1.tree pID tID ∧
    ownAnswers pID tID ws.2 = ownAnswers pID tID ws'.2

variable {pID : pid_t} {tID : pthread_t} {s s₁ t : State} {d : Delivery}

theorem ownAnswers_concat (answers : List (Delivery × Bool)) (b : Bool) :
    ownAnswers pID tID (answers ++ [(d, b)]) =
      ownAnswers pID tID answers ++ if d.msg.isOwn pID tID then [(d, b)] else [] := by
  unfold ownAnswers
  rw [List.filter_append, List.filter_singleton]
  cases d.msg.isOwn pID tID <;> rfl

/-- A step of the service is one of the world, with the same answer. -/
theorem step_handle {ws : World × List (Delivery × Bool)} (hS : Sim s ws) (hs : step s d = .ok s₁) :
    ∃ w₁ b, ws.1.handle d.msg = .ok (w₁, b) ∧ Sim s₁ (w₁, ws.2 ++ [(d, b)]) := by
  obtain ⟨ws₁, hws, hS₁⟩ := step_sim hS hs
  obtain ⟨⟨w₁, b⟩, hw, heq⟩ := bind_eq_ok.mp hws
  obtain rfl := Except.ok.inj heq
  exact ⟨w₁, b, hw, hS₁⟩

theorem handle_step {ws : World × List (Delivery × Bool)} {w₁ : World} {b : Bool} (hS : Sim s ws)
    (hw : ws.1.handle d.msg = .ok (w₁, b)) :
    ∃ s₁, step s d = .ok s₁ ∧ Sim s₁ (w₁, ws.2 ++ [(d, b)]) := by
  refine step_sim_back ?_ hS
  rw [World.step, hw]
  rfl

theorem Agree.concerned (h : Agree pID tID s t) (hd : d.msg.concerns pID tID = true)
    (hs : step s d = .ok s₁) : ∃ t₁, step t d = .ok t₁ ∧ Agree pID tID s₁ t₁ := by
  obtain ⟨ws, wt, hS, hT, htree, hans⟩ := h
  obtain ⟨w₁, b, hw, hS₁⟩ := step_handle hS hs
  obtain ⟨v₁, b', hv, htree₁, hown⟩ := World.handle_concerned hd
    hS.rep.tree_none_of_unregistered hT.rep.tree_none_of_unregistered htree hw
  obtain ⟨t₁, ht₁, hT₁⟩ := handle_step hT hv
  refine ⟨t₁, ht₁, _, _, hS₁, hT₁, htree₁, ?_⟩
  rw [ownAnswers_concat, ownAnswers_concat, hans]
  split
  · next hisOwn => rw [hown hisOwn]
  · rfl

theorem Agree.unconcerned (h : Agree pID tID s t) (hd : d.msg.concerns pID tID = false)
    (hs : step s d = .ok s₁) : Agree pID tID s₁ t := by
  obtain ⟨ws, wt, hS, hT, htree, hans⟩ := h
  obtain ⟨w₁, b, hw, hS₁⟩ := step_handle hS hs
  refine ⟨_, wt, hS₁, hT, ?_, ?_⟩
  · exact (World.handle_unconcerned hd hS.rep.tree_none_of_unregistered hw).trans htree
  · have hown : ¬ d.msg.isOwn pID tID = true := fun hown =>
      (of_decide_eq_false hd) (Or.inl (of_decide_eq_true hown))
    rw [ownAnswers_concat, if_neg hown, List.append_nil, hans]

/-- **What does not concern a thread leaves no trace with it**: the run of its share agrees with the
    run of all. -/
theorem run_agrees (pID : pid_t) (tID : pthread_t) {ds : List Delivery} {s : State}
    (h : run ds = .ok s) :
    ∃ s', run (ds.filter (·.msg.concerns pID tID)) = .ok s' ∧ Agree pID tID s s' := by
  have h₀ : Agree pID tID .init .init := ⟨_, _, .init, .init, rfl, rfl⟩
  refine foldlM_unwind ?_ ?_ h₀ h
  · intro s t d s₁ hd h hs
    exact h.concerned hd hs
  · intro s t d s₁ hd h hs
    exact h.unconcerned hd hs

end Service
end RdkPerf

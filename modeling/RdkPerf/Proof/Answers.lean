import RdkPerf.Proof.Isolation

/-!
# What an answer of the service says

`false`: nothing happened (`handleMessage_false`). Each handler gives up before it writes, and the
look-up they share creates nothing for those that may give up; the one handler it does create
for, that of an entry, never gives up. So a run comes to what its accepted messages come to
(`run_accepted`).
-/

namespace RdkPerf

open Lib

namespace Service

variable {m m' : Mem} {pID : pid_t} {tID : pthread_t} {pTree : Option TreePtr} {env : Env}

/-! ## Rejected -/

/-- A look-up that may not create leaves the map alone. -/
theorem getTree_lookup (h : getTree m pID tID false env = .ok (m', pTree)) : m' = m := by
  cases hfind : RDKPerf_FindProcess m pID with
  | none =>
    rw [getTree_missed hfind] at h
    exact (Prod.mk.inj (Except.ok.inj h)).1.symm
  | some pProcess =>
    rw [getTree_found hfind] at h
    obtain ⟨found, -, h⟩ := bind_eq_ok.mp h
    cases found with
    | none => exact (Prod.mk.inj (Except.ok.inj h)).1.symm
    | some t => exact (Prod.mk.inj (Except.ok.inj h)).1.symm

/-- `NewTree` answers no tree only for a thread that has one. -/
theorem newTree_none (h : PerfProcess.newTree m pID tID env = .ok (m', none)) :
    ∃ proc, m.processMap[pID]? = some proc ∧ proc.mapThreads[tID]? ≠ none := by
  obtain ⟨proc, hproc, h⟩ := bind_eq_ok.mp h
  refine ⟨proc, Mem.process_eq_ok.mp hproc, fun hnone => ?_⟩
  simp only [hnone] at h
  exact absurd h (by simp)

theorem getTree_found_none (h : PerfProcess.getTree m pID tID = .ok none) :
    ∃ proc, m.processMap[pID]? = some proc ∧ proc.mapThreads[tID]? = none := by
  obtain ⟨proc, hproc, h⟩ := bind_eq_ok.mp h
  refine ⟨proc, Mem.process_eq_ok.mp hproc, ?_⟩
  cases ht : proc.mapThreads[tID]? with
  | none => rfl
  | some t =>
    simp only [ht] at h
    exact absurd (Except.ok.inj h) (by simp)

/-- The tree just missed is the one `NewTree` would have to find. -/
theorem newTree_of_missed (hget : PerfProcess.getTree m pID tID = .ok none) :
    PerfProcess.newTree m pID tID env ≠ .ok (m', none) := by
  intro hnew
  obtain ⟨proc, hproc, hmiss⟩ := getTree_found_none hget
  obtain ⟨proc', hproc', hhit⟩ := newTree_none hnew
  obtain rfl := Option.some.inj (hproc.symm.trans hproc')
  exact hhit hmiss

/-- A look-up that may create always answers a tree. -/
theorem getTree_creates (h : getTree m pID tID true env = .ok (m', pTree)) : pTree ≠ none := by
  rintro rfl
  have hsearch : ∀ (m₁ : Mem) (pProcess : ProcPtr),
      getTreeIn m₁ pProcess tID true env ≠ .ok (m', none) := by
    intro m₁ pProcess hrun
    obtain ⟨found, hget, hrun⟩ := bind_eq_ok.mp hrun
    cases found with
    | none => exact newTree_of_missed hget hrun
    | some t => exact absurd (Prod.mk.inj (Except.ok.inj hrun)).2 (by simp)
  cases hfind : RDKPerf_FindProcess m pID with
  | none =>
    rw [getTree_inserted hfind] at h
    exact hsearch _ _ h
  | some pProcess =>
    rw [getTree_found hfind] at h
    exact hsearch _ _ h

/-! Each handler, one after the other: where it says `false`, it has not written. -/

theorem handleEntry_accepts {msg : EntryMessage} : handleEntry m msg env ≠ .ok (m', false) := by
  intro h
  obtain ⟨⟨m₁, pTree⟩, hget, h⟩ := bind_eq_ok.mp h
  cases pTree with
  | none => exact getTree_creates hget rfl
  | some t =>
    obtain ⟨⟨m₂, pNode⟩, -, h⟩ := bind_eq_ok.mp h
    dsimp only at h
    split at h
    · exact absurd (Prod.mk.inj (Except.ok.inj h)).2 (by simp)
    · exact absurd (Prod.mk.inj (Except.ok.inj h)).2 (by simp)

theorem handleThreshold_false {msg : ThresholdMessage}
    (h : handleThreshold m msg env = .ok (m', false)) : m' = m := by
  obtain ⟨⟨m₁, pTree⟩, hget, h⟩ := bind_eq_ok.mp h
  obtain rfl := getTree_lookup hget
  cases pTree with
  | none => exact (Prod.mk.inj (Except.ok.inj h)).1.symm
  | some t =>
    obtain ⟨pNode, -, h⟩ := bind_eq_ok.mp h
    split at h
    · obtain ⟨node, -, h⟩ := bind_eq_ok.mp h
      exact absurd (Prod.mk.inj (Except.ok.inj h)).2 (by simp)
    · exact (Prod.mk.inj (Except.ok.inj h)).1.symm

theorem handleExit_false {msg : ExitMessage} (h : handleExit m msg env = .ok (m', false)) :
    m' = m := by
  obtain ⟨⟨m₁, pTree⟩, hget, h⟩ := bind_eq_ok.mp h
  obtain rfl := getTree_lookup hget
  cases pTree with
  | none => exact (Prod.mk.inj (Except.ok.inj h)).1.symm
  | some t =>
    obtain ⟨pNode, -, h⟩ := bind_eq_ok.mp h
    obtain ⟨node, -, h⟩ := bind_eq_ok.mp h
    cases hname : msg.szName with
    | none =>
      rw [hname] at h
      exact absurd h (by simp)
    | some szName =>
      simp only [hname] at h
      split at h
      · -- once the statistics are written there is no way back to `false`
        obtain ⟨m₂, -, h⟩ := bind_eq_ok.mp h
        obtain ⟨m₃, -, h⟩ := bind_eq_ok.mp h
        exact absurd (Prod.mk.inj (Except.ok.inj h)).2 (by simp)
      · exact (Prod.mk.inj (Except.ok.inj h)).1.symm

theorem handleReportThread_false {msg : ThreadMessage}
    (h : handleReportThread m msg env = .ok (m', false)) : m' = m := by
  obtain ⟨⟨m₁, pTree⟩, hget, h⟩ := bind_eq_ok.mp h
  obtain rfl := getTree_lookup hget
  cases pTree with
  | none => exact (Prod.mk.inj (Except.ok.inj h)).1.symm
  | some t =>
    obtain ⟨m₂, -, h⟩ := bind_eq_ok.mp h
    exact absurd (Prod.mk.inj (Except.ok.inj h)).2 (by simp)

theorem handleReportProcess_false {msg : ProcessMessage}
    (h : handleReportProcess m msg env = .ok (m', false)) : m' = m := by
  unfold handleReportProcess at h
  split at h
  · exact (Prod.mk.inj (Except.ok.inj h)).1.symm
  · obtain ⟨_, -, h⟩ := bind_eq_ok.mp h
    obtain ⟨⟨m₁, closed⟩, -, h⟩ := bind_eq_ok.mp h
    obtain ⟨m₂, -, h⟩ := bind_eq_ok.mp h
    exact absurd (Prod.mk.inj (Except.ok.inj h)).2 (by simp)

theorem handleCloseThread_false {msg : ThreadMessage}
    (h : handleCloseThread m msg = .ok (m', false)) : m' = m := by
  unfold handleCloseThread at h
  split at h
  · exact (Prod.mk.inj (Except.ok.inj h)).1.symm
  · obtain ⟨proc, -, h⟩ := bind_eq_ok.mp h
    split at h
    · exact (Prod.mk.inj (Except.ok.inj h)).1.symm
    · obtain ⟨m₁, -, h⟩ := bind_eq_ok.mp h
      exact absurd (Prod.mk.inj (Except.ok.inj h)).2 (by simp)

theorem handleCloseProcess_accepts {msg : ProcessMessage} :
    handleCloseProcess m msg ≠ .ok (m', false) := by
  intro h
  obtain ⟨m₁, -, h⟩ := bind_eq_ok.mp h
  exact absurd (Prod.mk.inj (Except.ok.inj h)).2 (by simp)

theorem handleMessage_false {msg : PerfMessage} (h : handleMessage m msg env = .ok (m', false)) :
    m' = m := by
  unfold handleMessage at h
  split at h
  · exact absurd h handleEntry_accepts
  · exact handleThreshold_false h
  · exact handleExit_false h
  · exact handleReportThread_false h
  · exact handleReportProcess_false h
  · exact handleCloseThread_false h
  · exact absurd h handleCloseProcess_accepts
  · exact (Prod.mk.inj (Except.ok.inj h)).1.symm

/-- A run comes to what the messages it accepted come to. -/
theorem run_accepted {ds : List Delivery} {s : State} (h : run ds = .ok s) :
    run ((s.answers.filter Prod.snd).map Prod.fst) = .ok ⟨s.mem, s.answers.filter Prod.snd⟩ := by
  induction ds using List.reverseRecOn generalizing s with
  | nil =>
    obtain rfl := Except.ok.inj h
    rfl
  | append_singleton ds d ih =>
    obtain ⟨s₀, hs₀, hd⟩ := foldlM_concat_ok.mp h
    obtain ⟨⟨m₁, retVal⟩, hm₁, heq⟩ := bind_eq_ok.mp hd
    obtain rfl := Except.ok.inj heq
    have ih' := ih hs₀
    dsimp only
    rw [List.filter_append]
    cases retVal with
    | false =>
      rw [handleMessage_false hm₁, List.filter_cons_of_neg (by simp), List.filter_nil,
        List.append_nil]
      exact ih'
    | true =>
      rw [List.filter_cons_of_pos rfl, List.filter_nil, List.map_append]
      refine foldlM_concat_ok.mpr ⟨_, ih', ?_⟩
      show (handleMessage s₀.mem d.msg d.env >>= _) = _
      rw [hm₁]
      rfl

/-- **A rejected message changes nothing**, whatever was handled before it; so a run may as well
    leave out what it rejected. -/
theorem rejected_unchanged {ds : List Delivery} {s : State} (h : run ds = .ok s) :
    (∀ msg env m', handleMessage s.mem msg env = .ok (m', false) → m' = s.mem) ∧
      run ((s.answers.filter Prod.snd).map Prod.fst) = .ok ⟨s.mem, s.answers.filter Prod.snd⟩ :=
  ⟨fun _ _ _ hrej => handleMessage_false hrej, run_accepted h⟩

/-- What `SendMessage` hands to the queue, delivered. -/
def handed (self : Sender) (type : MessageType) (szName : CString) : List Delivery :=
  match PerfMsgQueue.sendMessage self type (some szName) 0 0 with
  | .ok (some msg) => [⟨msg, {}⟩]
  | _ => []

/-- `f` is entered, and `g` is left. -/
def strayExit : List Delivery :=
  handed ⟨threadA, 42⟩ .eEntry nameF ++ handed ⟨threadA, 42⟩ .eExit nameG

theorem strayExit_unchanged : ∃ s, run strayExit = .ok s ∧ s.answers.map Prod.snd = [true, false] ∧
    (∀ msg env m', handleMessage s.mem msg env = .ok (m', false) → m' = s.mem) ∧
      run ((s.answers.filter Prod.snd).map Prod.fst) = .ok ⟨s.mem, s.answers.filter Prod.snd⟩ := by
  obtain ⟨s, hs, hanswers⟩ := ok_of_toOption_bind (show (run strayExit).toOption.bind
    (fun s => some (s.answers.map Prod.snd)) = some [true, false] by decide)
  exact ⟨s, hs, Option.some.inj hanswers, rejected_unchanged hs⟩

end Service
end RdkPerf

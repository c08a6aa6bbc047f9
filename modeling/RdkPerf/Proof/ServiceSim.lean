import RdkPerf.Proof.Entry

/-!
# The service computes `World.handle`

One message: on a memory that represents `w`, `HandleMessage` fails exactly when `World.handle`
does, and otherwise gives the same answer and a memory that represents the world it gives
(`handleMessage_refines`). A run: `Service.run` is the run of `World.handle` from the empty world
(`run_sim`, `run_sim_back`), in both directions, so a property of one is a property of the other.
-/

namespace RdkPerf

open Lib

variable {m : Mem} {w : World} {pID : pid_t} {tID : pthread_t} {t : TreePtr} {r : NodePtr}
  {ct : CallTree}

/-- What the code did on `m` is what the world does on `w`. -/
def Refines (m : Mem) (w : World) (code : Except Fault (Mem × Bool))
    (spec : Except Fault (World × Bool)) : Prop :=
  match spec with
  | .error e => code = .error e
  | .ok (w', b) => ∃ m', code = .ok (m', b) ∧ Evolve m w m' w'

namespace Service

/-- Without `bCreate`, `GetTree` looks the entry up. -/
theorem getTree_find (h : Rep m w) (pID : pid_t) (tID : pthread_t) (env : Env) :
    getTree m pID tID false env = .ok (m, m.treePtr pID tID) := by
  rw [getTree, findProcess_eq h]
  cases hreg : w.registered pID with
  | true =>
    show (PerfProcess.getTree m pID tID >>= _) = _
    rw [getTree_spec h hreg, ok_bind]
    cases m.treePtr pID tID <;> rfl
  | false =>
    have hnone : m.treePtr pID tID = none := by
      rw [h.treePtr_none_iff]
      exact h.tree_none_of_unregistered hreg
    rw [hnone]
    rfl

/-- A registered process is found. -/
theorem find_registered (h : Rep m w) (hreg : w.registered pID = true) :
    RDKPerf_FindProcess m pID = some pID := by
  rw [findProcess_eq h, if_pos hreg]

theorem find_unregistered (h : Rep m w) (hreg : w.registered pID = false) :
    RDKPerf_FindProcess m pID = none := by
  rw [findProcess_eq h, hreg]
  rfl

theorem top_spec (hT : Tracks m t r ct) :
    ∃ pTop, top m t = .ok pTop ∧ walk (childOf m) r ct.active = some pTop := by
  obtain ⟨pTop, rest, htree, htop⟩ := hT.top
  refine ⟨pTop, ?_, htop⟩
  rw [top, Mem.tree_eq_ok.mpr htree]
  rfl

/-! ## The handlers -/

theorem handleEntry_refines (h : Rep m w) (msg : EntryMessage) (env : Env) :
    Refines m w (handleEntry m msg env) (w.handleEntry msg) := by
  obtain ⟨m₁, t, hm₁, hrest⟩ := getTree_create h msg.pID msg.tID env
  have hthis := hrest (namesTree_entry msg.tID msg.szThreadName)
  rw [handleEntry, hm₁, ok_bind]
  unfold World.handleEntry
  cases hct : w.treeOrInit msg.pID msg.tID (fitThreadName msg.szThreadName) with
  | error e =>
    rw [hct] at hthis
    show (PerfTree.addNodeEntry _ _ _ _ _ >>= _) = _
    rw [PerfTree.addNodeEntry, hthis]
    rfl
  | ok ct =>
    rw [hct] at hthis
    obtain ⟨m₂, r, pTop, htop, hE₂, hent⟩ := hthis
    rw [ok_bind]
    cases hname : msg.szName with
    | none =>
      show (PerfTree.addNodeEntry _ _ _ _ _ >>= _) = _
      rw [PerfTree.addNodeEntry, htop]
      rfl
    | some szName =>
      dsimp only
      by_cases hszName : szName = []
      · -- the constructor of its node fails
        have hadd : PerfTree.addNodeEntry m₁ t (some szName) msg.tID msg.szThreadName =
            .error .clearedString := by
          rw [PerfTree.addNodeEntry, htop, hszName]
          exact hent.push_unnamed
        show Refines m w (PerfTree.addNodeEntry _ _ _ _ _ >>= _) _
        rw [hadd, if_pos hszName]
        rfl
      rw [if_neg hszName]
      obtain ⟨m₃, pNode, hpush, hE₃, hA₃, hw⟩ := hent.push hE₂.rep hszName
      rw [World.set_set] at hE₃ hA₃
      have hadd : PerfTree.addNodeEntry m₁ t (some szName) msg.tID msg.szThreadName =
          .ok (m₃, pNode) := by
        rw [PerfTree.addNodeEntry, htop]
        exact hpush
      have hmono : ∀ {p s}, w.tree p s ≠ none →
          ((w.register msg.pID).set msg.pID msg.tID (some ct)).tree p s ≠ none := by
        intro p s hne
        rw [World.set_tree]
        split
        · simp
        · exact hne
      have hE : Evolve m w m₃ ((w.register msg.pID).set msg.pID msg.tID (some (ct.enter szName))) :=
        hE₂.trans hE₃ fun hne _ => hmono hne
      show Refines m w (PerfTree.addNodeEntry _ _ _ _ _ >>= _) _
      rw [hadd, ok_bind]
      show Refines m w (if msg.nThresholdInUS > 0 then _ else _) _
      by_cases hthr : msg.nThresholdInUS > 0
      · -- the entry carries a threshold, and the new node takes it
        simp only [if_pos hthr]
        have hS := setThreshold_spec hA₃.tracks hw msg.nThresholdInUS
        have hE₄ := hE₃.rep.step hA₃ hS rfl
        rw [World.set_set] at hE₄
        refine ⟨_, rfl, hE.trans hE₄ fun {p s} hne _ => ?_⟩
        rw [World.set_tree]
        split
        · simp
        · exact hne
      · simp only [if_neg hthr]
        exact ⟨m₃, rfl, hE⟩

theorem handleThreshold_refines (h : Rep m w) (msg : ThresholdMessage) (env : Env) :
    Refines m w (handleThreshold m msg env) (.ok (w.handleThreshold msg)) := by
  rw [handleThreshold, getTree_find h, ok_bind, World.handleThreshold]
  cases ht : m.treePtr msg.pID msg.tID with
  | none =>
    rw [h.absent ht]
    exact ⟨m, rfl, .refl h⟩
  | some t =>
    obtain ⟨r, ct, hA⟩ := h.present ht
    obtain ⟨pTop, htop, hw⟩ := top_spec hA.tracks
    obtain ⟨n, hn, -⟩ := hA.tracks.live hw
    simp only [hA.spec, htop, ok_bind]
    by_cases hthr : msg.nThresholdInUS > 0
    · simp only [if_pos hthr, Mem.node_eq_ok.mpr hn, ok_bind]
      exact ⟨_, rfl, h.step hA (setThreshold_spec hA.tracks hw _) rfl⟩
    · simp only [if_neg hthr]
      exact ⟨m, rfl, .refl h⟩

theorem handleExit_refines (h : Rep m w) (msg : ExitMessage) (env : Env) :
    Refines m w (handleExit m msg env) (w.handleExit msg) := by
  rw [handleExit, getTree_find h, ok_bind, World.handleExit]
  cases ht : m.treePtr msg.pID msg.tID with
  | none =>
    rw [h.absent ht]
    exact ⟨m, rfl, .refl h⟩
  | some t =>
    obtain ⟨r, ct, hA⟩ := h.present ht
    obtain ⟨pTop, htop, hw⟩ := top_spec hA.tracks
    obtain ⟨n, hn, hlabel, -⟩ := hA.tracks.live hw
    simp only [hA.spec, htop, ok_bind, Mem.node_eq_ok.mpr hn]
    cases msg.szName with
    | none => rfl
    | some szName =>
      simp only [hlabel]
      by_cases hname : Path.label ct.active = szName
      · obtain ⟨m', hrun, hS⟩ := stop_spec hA.tracks hw msg.nTimeStamp
        obtain ⟨m₁, hm₁, hm'⟩ := bind_eq_ok.mp hrun
        simp only [if_pos hname, hm₁, hm', ok_bind]
        exact ⟨m', rfl, h.step hA hS (by simp)⟩
      · simp only [if_neg hname]
        exact ⟨m, rfl, .refl h⟩

theorem handleReportThread_refines (h : Rep m w) (msg : ThreadMessage) (env : Env) :
    Refines m w (handleReportThread m msg env) (.ok (w.handleReportThread msg)) := by
  rw [handleReportThread, getTree_find h, ok_bind, World.handleReportThread]
  cases ht : m.treePtr msg.pID msg.tID with
  | none =>
    rw [h.absent ht]
    exact ⟨m, rfl, .refl h⟩
  | some t =>
    obtain ⟨r, ct, hA⟩ := h.present ht
    obtain ⟨m', hm', hS, -⟩ := reportData_spec hA.tracks 0
    simp only [hA.spec, hm', ok_bind]
    exact ⟨m', rfl, h.step hA hS rfl⟩

theorem handleReportProcess_refines (h : Rep m w) (msg : ProcessMessage) (env : Env) :
    Refines m w (handleReportProcess m msg env) (.ok (w.handleReportProcess msg)) := by
  rw [handleReportProcess, World.handleReportProcess]
  cases hreg : w.registered msg.pID with
  | false =>
    rw [find_unregistered h hreg]
    exact ⟨m, rfl, .refl h⟩
  | true =>
    obtain ⟨m₁, b, hm₁, hE₁, -⟩ := closeInactiveThreads_spec h hreg
    obtain ⟨m₂, size, hm₂, hE₂, -⟩ := reportProcessData_spec hE₁.rep hreg env
    rw [find_registered h hreg]
    simp only [showTrees_spec h hreg, hm₁, hm₂, ok_bind]
    exact ⟨m₂, rfl, hE₁.trans hE₂ fun _ hne => World.tree_of_reportTrees hne⟩

theorem handleCloseThread_refines (h : Rep m w) (msg : ThreadMessage) :
    Refines m w (handleCloseThread m msg) (.ok (w.handleCloseThread msg)) := by
  rw [handleCloseThread, World.handleCloseThread]
  cases hreg : w.registered msg.pID with
  | false =>
    have hnone : w.tree msg.pID msg.tID = none := h.tree_none_of_unregistered hreg
    rw [find_unregistered h hreg, World.set_none_of_none hnone, hnone]
    exact ⟨m, rfl, .refl h⟩
  | true =>
    rw [find_registered h hreg]
    exact removeTree_spec h hreg msg.tID

theorem handleCloseProcess_refines (h : Rep m w) (msg : ProcessMessage) :
    Refines m w (handleCloseProcess m msg) (.ok (w.handleCloseProcess msg)) := by
  obtain ⟨m', hm', hE⟩ := removeProcess_spec h msg.pID
  rw [handleCloseProcess, hm']
  exact ⟨m', rfl, hE⟩

/-- **`HandleMessage` is `World.handle`.** -/
theorem handleMessage_refines (h : Rep m w) (msg : PerfMessage) (env : Env) :
    Refines m w (handleMessage m msg env) (w.handle msg) := by
  unfold handleMessage World.handle
  rcases MessageType.ofCode msg.type with _ | type
  · exact ⟨m, rfl, .refl h⟩
  · cases type with
    | eEntry => exact handleEntry_refines h _ env
    | eThreshold => exact handleThreshold_refines h _ env
    | eExit => exact handleExit_refines h _ env
    | eReportThread => exact handleReportThread_refines h _ env
    | eReportProcess => exact handleReportProcess_refines h _ env
    | eCloseThread => exact handleCloseThread_refines h _
    | eCloseProcess => exact handleCloseProcess_refines h _
    | eNoMessage | eExitQueue | eMaxType => exact ⟨m, rfl, .refl h⟩

/-! ## Runs -/

end Service

/-- Nothing is registered in the empty map. -/
theorem Rep.init : Rep .init .init where
  registered _ := Std.ExtTreeMap.contains_empty
  idProcess h := absurd (h.symm.trans Std.ExtTreeMap.getElem?_empty) (by simp)
  absent _ := rfl
  present h := by
    rw [Mem.treePtr, show Mem.init.processMap = ∅ from rfl, Std.ExtTreeMap.getElem?_empty] at h
    exact absurd h (by simp)
  apart hA := absurd hA.spec (by simp [World.init])

namespace World

/-- The world and the answers, as `Service.step` keeps the map and the answers. -/
def step (s : World × List (Service.Delivery × Bool)) (d : Service.Delivery) :
    Except Fault (World × List (Service.Delivery × Bool)) := do
  let (w, retVal) ← s.1.handle d.msg
  pure (w, s.2 ++ [(d, retVal)])

end World

namespace Service

/-- A service state and a world state that belong together. -/
structure Sim (s : State) (ws : World × List (Delivery × Bool)) : Prop where
  rep : Rep s.mem ws.1
  answers : s.answers = ws.2

theorem Sim.init : Sim .init (.init, []) := ⟨.init, rfl⟩

theorem step_sim {s s' : State} {ws : World × List (Delivery × Bool)} {d : Delivery}
    (h : Sim s ws) (hs : step s d = .ok s') : ∃ ws', World.step ws d = .ok ws' ∧ Sim s' ws' := by
  have href := handleMessage_refines h.rep d.msg d.env
  obtain ⟨⟨m', b⟩, hm', heq⟩ := bind_eq_ok.mp hs
  obtain rfl := Except.ok.inj heq
  cases hw : ws.1.handle d.msg with
  | error e =>
    rw [hw] at href
    exact absurd (hm'.symm.trans href) (by simp)
  | ok wb =>
    obtain ⟨w', b'⟩ := wb
    rw [hw] at href
    obtain ⟨m'', hm'', hE⟩ := href
    obtain ⟨rfl, rfl⟩ := Prod.mk.inj (Except.ok.inj (hm'.symm.trans hm''))
    refine ⟨(w', ws.2 ++ [(d, b)]), ?_, hE.rep, by rw [h.answers]⟩
    rw [World.step, hw]
    rfl

theorem step_sim_back {s : State} {ws ws' : World × List (Delivery × Bool)} {d : Delivery}
    (hw : World.step ws d = .ok ws') (h : Sim s ws) : ∃ s', step s d = .ok s' ∧ Sim s' ws' := by
  have href := handleMessage_refines h.rep d.msg d.env
  obtain ⟨⟨w', b⟩, hw', heq⟩ := bind_eq_ok.mp hw
  obtain rfl := Except.ok.inj heq
  rw [hw'] at href
  obtain ⟨m', hm', hE⟩ := href
  refine ⟨⟨m', s.answers ++ [(d, b)]⟩, ?_, hE.rep, by rw [h.answers]⟩
  rw [step, hm']
  rfl

/-- **Every run of the service is a run of the world** … -/
theorem run_sim {ds : List Delivery} {s : State} (h : run ds = .ok s) :
    ∃ ws, ds.foldlM World.step (.init, []) = .ok ws ∧ Sim s ws := by
  have hrun : ds.foldlM step State.init = .ok s := h
  refine foldlM_lockstep ?_ Sim.init hrun
  intro s ws d s' _ hS hs
  exact step_sim hS hs

/-- … and every run of the world is one of the service. -/
theorem run_sim_back {ds : List Delivery} {ws : World × List (Delivery × Bool)}
    (h : ds.foldlM World.step (.init, []) = .ok ws) : ∃ s, run ds = .ok s ∧ Sim s ws := by
  show ∃ s, ds.foldlM step State.init = .ok s ∧ Sim s ws
  refine foldlM_lockstep (R := fun ws s => Sim s ws) ?_ Sim.init h
  intro ws s d ws' _ hS hw
  exact step_sim_back hw hS

/-- In every state of the service the memory represents a world. -/
theorem run_rep {ds : List Delivery} {s : State} (h : run ds = .ok s) : ∃ w, Rep s.mem w := by
  obtain ⟨ws, -, hS⟩ := run_sim h
  exact ⟨ws.1, hS.rep⟩

end Service
end RdkPerf

import RdkPerf.Model.Service

/-!
# What the trees are for: `CallTree` and `World`

A `CallTree` is what a `PerfTree` says with the pointers forgotten: the data of each path of names
below the root, and the path that is open now. Paths and the open path are **innermost first**,
so entering a call and leaving it work on the head.

A `World` has one call tree for each registered thread, and nothing else: no node store, no thread
map, no clock, no log. `World.handle` is what a message does to it. That the code computes exactly
this (`Proof/ServiceSim.lean`) is what lets properties of the service be argued here.
-/

namespace RdkPerf

/-- What a node records of the calls at its path. -/
structure NodeData where
  stats : TimingStats
  thresholdInUS : Int32
deriving DecidableEq, Repr

/-- A path of names, innermost first; the root is the empty path. -/
abbrev Path := List Name

namespace Path

/-- The name a node has by its path. -/
def label : Path → Name
  | [] => rootName
  | name :: _ => name

end Path

def PerfNode.data (n : PerfNode) : NodeData := ⟨n.stats, n.thresholdInUS⟩

namespace NodeData

def root : NodeData := PerfNode.root.data
def fresh (name : Name) : NodeData := (PerfNode.named name).data

def increment (d : NodeData) (deltaTime : UInt64) : NodeData :=
  { d with stats := d.stats.increment deltaTime 0 0 }

def resetInterval (d : NodeData) : NodeData := { d with stats := d.stats.resetInterval }

def setThreshold (d : NodeData) (nUS : Int32) : NodeData := { d with thresholdInUS := nUS }

end NodeData

@[ext] structure CallTree where
  idThread : pthread_t
  threadName : Name
  node : Path → Option NodeData
  active : Path
  activityCount : UInt64
  countAtLastReport : UInt64

namespace CallTree

/-- The tree of a thread that has not entered anything. -/
def init (idThread : pthread_t) (threadName : Name) : CallTree where
  idThread := idThread
  threadName := threadName
  node π := if π = [] then some .root else none
  active := []
  activityCount := 0
  countAtLastReport := 0

/-- Change what is recorded at one path. -/
def onNode (ct : CallTree) (π : Path) (f : NodeData → NodeData) : CallTree :=
  { ct with node := fun σ => if σ = π then (ct.node σ).map f else ct.node σ }

/-- Enter a call: its path is recorded from now on, and open. -/
def enter (ct : CallTree) (name : Name) : CallTree :=
  { ct with
    node := fun σ =>
      if σ = name :: ct.active then some ((ct.node σ).getD (.fresh name)) else ct.node σ
    active := name :: ct.active
    activityCount := ct.activityCount + 1 }

/-- Close the call at `π`. Only the innermost open call closes, and the root never does. -/
def close (ct : CallTree) (π : Path) : CallTree :=
  if π ≠ [] ∧ π = ct.active then { ct with active := π.tail } else ct

/-- A call at `π` took `deltaTime`. -/
def stop (ct : CallTree) (π : Path) (deltaTime : UInt64) : CallTree :=
  (ct.onNode π (·.increment deltaTime)).close π

/-- A report starts the intervals anew. -/
def report (ct : CallTree) : CallTree :=
  { ct with
    node := fun σ => (ct.node σ).map .resetInterval
    countAtLastReport := ct.activityCount }

/-- The thread's name in the line of its report. -/
def shownName (ct : CallTree) : Name :=
  PerfTree.shownThreadName ct.threadName ct.activityCount ct.countAtLastReport

/-- Nothing was entered since the last report, and nothing is open. -/
def inactive (ct : CallTree) : Bool :=
  ct.activityCount = ct.countAtLastReport ∧ ct.active = []

section Lemmas

variable (ct : CallTree) (π : Path) (f : NodeData → NodeData)

@[simp] theorem onNode_idThread : (ct.onNode π f).idThread = ct.idThread := rfl
@[simp] theorem onNode_threadName : (ct.onNode π f).threadName = ct.threadName := rfl
@[simp] theorem onNode_active : (ct.onNode π f).active = ct.active := rfl
@[simp] theorem onNode_activityCount : (ct.onNode π f).activityCount = ct.activityCount := rfl
@[simp] theorem onNode_countAtLastReport :
    (ct.onNode π f).countAtLastReport = ct.countAtLastReport := rfl

@[simp] theorem close_idThread : (ct.close π).idThread = ct.idThread := by
  unfold close; split <;> rfl
@[simp] theorem close_threadName : (ct.close π).threadName = ct.threadName := by
  unfold close; split <;> rfl
@[simp] theorem close_node : (ct.close π).node = ct.node := by
  unfold close; split <;> rfl
@[simp] theorem close_activityCount : (ct.close π).activityCount = ct.activityCount := by
  unfold close; split <;> rfl
@[simp] theorem close_countAtLastReport :
    (ct.close π).countAtLastReport = ct.countAtLastReport := by
  unfold close; split <;> rfl

@[simp] theorem close_root : ct.close [] = ct := by simp [close]

@[simp] theorem stop_idThread (d : UInt64) : (ct.stop π d).idThread = ct.idThread := by
  simp [stop]

end Lemmas
end CallTree

/-- What a new tree can take of a thread name: `m_ThreadName` has 16 bytes. -/
def fitThreadName : Option Name → Except Fault Name
  | none => .error .overread
  | some szThreadName =>
    if szThreadName.length ≤ THREAD_NAMELEN then .ok szThreadName else .error .overrun

/-! ## All threads of all processes -/

@[ext] structure World where
  registered : pid_t → Bool
  tree : pid_t → pthread_t → Option CallTree

namespace World

def init : World := ⟨fun _ => false, fun _ _ => none⟩

def register (w : World) (pID : pid_t) : World :=
  { w with registered := fun p => p = pID || w.registered p }

/-- Replace the tree of one thread. -/
def set (w : World) (pID : pid_t) (tID : pthread_t) (ct : Option CallTree) : World :=
  { w with tree := fun p t => if p = pID ∧ t = tID then ct else w.tree p t }

/-- Change, or remove, each tree of one process. -/
def sweep (w : World) (pID : pid_t) (f : CallTree → Option CallTree) : World :=
  { w with tree := fun p t => if p = pID then (w.tree p t).bind f else w.tree p t }

def closeInactive (w : World) (pID : pid_t) : World :=
  w.sweep pID fun ct => if ct.inactive then none else some ct

def reportTrees (w : World) (pID : pid_t) : World := w.sweep pID fun ct => some ct.report

/-- Remove what is inactive, then report what is left. -/
def reportProcess (w : World) (pID : pid_t) : World := (w.closeInactive pID).reportTrees pID

/-- The tree an entry goes to: the thread's, or a new one under the thread's name. -/
def treeOrInit (w : World) (pID : pid_t) (tID : pthread_t) (threadName : Except Fault Name) :
    Except Fault CallTree :=
  match w.tree pID tID with
  | some ct => .ok ct
  | none => CallTree.init tID <$> threadName

def removeProcess (w : World) (pID : pid_t) : World where
  registered p := p ≠ pID && w.registered p
  tree p t := if p = pID then none else w.tree p t

section Lemmas

variable (w : World) (pID p : pid_t) (tID t : pthread_t)

@[simp] theorem register_registered :
    (w.register pID).registered p = (decide (p = pID) || w.registered p) := rfl
@[simp] theorem register_tree : (w.register pID).tree = w.tree := rfl

@[simp] theorem set_registered (ct : Option CallTree) :
    (w.set pID tID ct).registered = w.registered := rfl
@[simp] theorem set_tree (ct : Option CallTree) :
    (w.set pID tID ct).tree p t = if p = pID ∧ t = tID then ct else w.tree p t := rfl

@[simp] theorem sweep_registered (f : CallTree → Option CallTree) :
    (w.sweep pID f).registered = w.registered := rfl
@[simp] theorem sweep_tree (f : CallTree → Option CallTree) :
    (w.sweep pID f).tree p t = if p = pID then (w.tree p t).bind f else w.tree p t := rfl

@[simp] theorem removeProcess_registered :
    (w.removeProcess pID).registered p = (decide (p ≠ pID) && w.registered p) := rfl
@[simp] theorem removeProcess_tree :
    (w.removeProcess pID).tree p t = if p = pID then none else w.tree p t := rfl

@[simp] theorem set_set (ct ct' : Option CallTree) :
    (w.set pID tID ct).set pID tID ct' = w.set pID tID ct' := by
  refine World.ext rfl (funext fun p => funext fun t => ?_)
  simp only [set_tree]
  split <;> rfl

theorem set_none_of_none {w : World} {pID : pid_t} {tID : pthread_t}
    (h : w.tree pID tID = none) : w.set pID tID none = w := by
  refine World.ext rfl (funext fun p => funext fun t => ?_)
  rw [set_tree]
  split
  · next hk => rw [hk.1, hk.2, h]
  · rfl

theorem register_of_registered {w : World} {pID : pid_t} (h : w.registered pID = true) :
    w.register pID = w := by
  refine World.ext (funext fun p => ?_) rfl
  rw [register_registered]
  by_cases hp : p = pID
  · rw [hp, h]
    simp
  · simp [hp]

/-- A tree that is there after a report was there before it. -/
theorem tree_of_reportTrees {w : World} {pID p : pid_t} {t : pthread_t}
    (h : (w.reportTrees pID).tree p t ≠ none) : w.tree p t ≠ none := by
  intro hn
  refine h ?_
  show (if p = pID then (w.tree p t).bind _ else w.tree p t) = none
  rw [hn]
  split <;> rfl

/-- A registered tree survives, changed or not, what a report does to a process. -/
theorem reportProcess_tree : (w.reportProcess pID).tree p t =
    if p = pID then (w.tree p t).bind fun ct => if ct.inactive then none else some ct.report
    else w.tree p t := by
  unfold reportProcess reportTrees closeInactive
  simp only [sweep_tree]
  split
  · cases w.tree p t with
    | none => rfl
    | some ct =>
      simp only [Option.bind_some]
      split <;> rfl
  · rfl

/-- What is left after a report of the process was there before it, and was reported if it is a
    tree of the process. -/
theorem tree_of_reportProcess {w : World} {pID p : pid_t} {t : pthread_t} {ct' : CallTree}
    (h : (w.reportProcess pID).tree p t = some ct') :
    ∃ ct, w.tree p t = some ct ∧ (ct' = ct ∨ ct' = ct.report) := by
  rw [reportProcess_tree] at h
  split at h
  · obtain ⟨ct, hct, hif⟩ := Option.bind_eq_some_iff.mp h
    split at hif
    · exact absurd hif (by simp)
    · exact ⟨ct, hct, Or.inr (Option.some.inj hif).symm⟩
  · exact ⟨ct', h, Or.inl rfl⟩

theorem tree_of_removeProcess {w : World} {pID p : pid_t} {t : pthread_t} {ct' : CallTree}
    (h : (w.removeProcess pID).tree p t = some ct') : w.tree p t = some ct' := by
  rw [removeProcess_tree] at h
  split at h
  · exact absurd h (by simp)
  · exact h

end Lemmas

/-! ## Messages -/

def handleEntry (w : World) (msg : EntryMessage) : Except Fault (World × Bool) := do
  let ct ← w.treeOrInit msg.pID msg.tID (fitThreadName msg.szThreadName)
  match msg.szName with
  | none => .error .overread
  | some szName =>
    if szName = [] then
      .error .clearedString
    else
      let ct := ct.enter szName
      let ct :=
        if msg.nThresholdInUS > 0 then ct.onNode ct.active (·.setThreshold msg.nThresholdInUS)
        else ct
      .ok ((w.register msg.pID).set msg.pID msg.tID (some ct), true)

def handleThreshold (w : World) (msg : ThresholdMessage) : World × Bool :=
  match w.tree msg.pID msg.tID with
  | none => (w, false)
  | some ct =>
    if msg.nThresholdInUS > 0 then
      let ct := ct.onNode ct.active (·.setThreshold msg.nThresholdInUS)
      (w.set msg.pID msg.tID (some ct), true)
    else
      (w, false)

/-- An exit goes to the innermost open call, if it has that name; a tree with nothing open takes
    one that names the root, and keeps its root. -/
def handleExit (w : World) (msg : ExitMessage) : Except Fault (World × Bool) :=
  match w.tree msg.pID msg.tID, msg.szName with
  | none, _ => .ok (w, false)
  | some _, none => .error .overread
  | some ct, some szName =>
    if ct.active.label = szName then
      .ok (w.set msg.pID msg.tID (some (ct.stop ct.active msg.nTimeStamp)), true)
    else
      .ok (w, false)

def handleReportThread (w : World) (msg : ThreadMessage) : World × Bool :=
  match w.tree msg.pID msg.tID with
  | none => (w, false)
  | some ct => (w.set msg.pID msg.tID (some ct.report), true)

def handleReportProcess (w : World) (msg : ProcessMessage) : World × Bool :=
  if w.registered msg.pID then (w.reportProcess msg.pID, true) else (w, false)

def handleCloseThread (w : World) (msg : ThreadMessage) : World × Bool :=
  (w.set msg.pID msg.tID none, (w.tree msg.pID msg.tID).isSome)

def handleCloseProcess (w : World) (msg : ProcessMessage) : World × Bool :=
  (w.removeProcess msg.pID, true)

def handle (w : World) (msg : PerfMessage) : Except Fault (World × Bool) :=
  match MessageType.ofCode msg.type with
  | some .eEntry => w.handleEntry msg.entry
  | some .eThreshold => .ok (w.handleThreshold msg.threshold)
  | some .eExit => w.handleExit msg.exit
  | some .eReportThread => .ok (w.handleReportThread msg.report_thread)
  | some .eReportProcess => .ok (w.handleReportProcess msg.report_process)
  | some .eCloseThread => .ok (w.handleCloseThread msg.close_thread)
  | some .eCloseProcess => .ok (w.handleCloseProcess msg.close_process)
  | _ => .ok (w, false)

/-- What a message does that is handled without a fault: the trees after it, and the answer. -/
inductive Handled (w : World) (msg : PerfMessage) : World → Bool → Prop
  | entry (ct : CallTree) (szName : Name) (htype : MessageType.ofCode msg.type = some .eEntry)
      (hinit : w.treeOrInit msg.entry.pID msg.entry.tID
        (fitThreadName msg.entry.szThreadName) = .ok ct)
      (hname : msg.entry.szName = some szName) (hne : szName ≠ []) :
      Handled w msg ((w.register msg.entry.pID).set msg.entry.pID msg.entry.tID (some
        (if msg.entry.nThresholdInUS > 0 then
          (ct.enter szName).onNode (ct.enter szName).active
            (·.setThreshold msg.entry.nThresholdInUS)
        else ct.enter szName))) true
  | threshold (ct : CallTree) (htype : MessageType.ofCode msg.type = some .eThreshold)
      (hct : w.tree msg.threshold.pID msg.threshold.tID = some ct) :
      Handled w msg (w.set msg.threshold.pID msg.threshold.tID (some
        (ct.onNode ct.active (·.setThreshold msg.threshold.nThresholdInUS)))) true
  | exit (ct : CallTree) (htype : MessageType.ofCode msg.type = some .eExit)
      (hct : w.tree msg.exit.pID msg.exit.tID = some ct)
      (hname : msg.exit.szName = some ct.active.label) :
      Handled w msg (w.set msg.exit.pID msg.exit.tID (some
        (ct.stop ct.active msg.exit.nTimeStamp))) true
  | reportThread (ct : CallTree) (htype : MessageType.ofCode msg.type = some .eReportThread)
      (hct : w.tree msg.report_thread.pID msg.report_thread.tID = some ct) :
      Handled w msg (w.set msg.report_thread.pID msg.report_thread.tID (some ct.report)) true
  | reportProcess (htype : MessageType.ofCode msg.type = some .eReportProcess) :
      Handled w msg (w.reportProcess msg.report_process.pID) true
  | closeThread (htype : MessageType.ofCode msg.type = some .eCloseThread) :
      Handled w msg (w.set msg.close_thread.pID msg.close_thread.tID none)
        (w.tree msg.close_thread.pID msg.close_thread.tID).isSome
  | closeProcess (htype : MessageType.ofCode msg.type = some .eCloseProcess) :
      Handled w msg (w.removeProcess msg.close_process.pID) true
  /-- An entry and the close of a process are never turned down. -/
  | rejected (hentry : MessageType.ofCode msg.type ≠ some .eEntry)
      (hclose : MessageType.ofCode msg.type ≠ some .eCloseProcess) : Handled w msg w false

section Cases

variable {w w' : World} {retVal : Bool}

theorem treeOrInit_cases {pID : pid_t} {tID : pthread_t} {threadName : Except Fault Name}
    {ct : CallTree} (h : w.treeOrInit pID tID threadName = .ok ct) :
    w.tree pID tID = some ct ∨
      w.tree pID tID = none ∧ ∃ name, threadName = .ok name ∧ ct = CallTree.init tID name := by
  unfold treeOrInit at h
  cases htree : w.tree pID tID with
  | some ct₀ =>
    rw [htree] at h
    exact Or.inl (congrArg some (Except.ok.inj h))
  | none =>
    rw [htree] at h
    cases threadName with
    | error e => exact absurd h (by simp [Functor.map, Except.map])
    | ok name => exact Or.inr ⟨rfl, name, rfl, (Except.ok.inj h).symm⟩

/-- An exit that is accepted leaves the innermost call, and changes nothing else. -/
theorem handleExit_cases {msg : ExitMessage} (h : w.handleExit msg = .ok (w', retVal)) :
    (retVal = true ∧ ∃ ct, w.tree msg.pID msg.tID = some ct ∧ msg.szName = some ct.active.label ∧
      w' = w.set msg.pID msg.tID (some (ct.stop ct.active msg.nTimeStamp))) ∨
    (retVal = false ∧ w' = w) := by
  unfold handleExit at h
  cases htree : w.tree msg.pID msg.tID with
  | none =>
    rw [htree] at h
    obtain ⟨rfl, rfl⟩ := Prod.mk.inj (Except.ok.inj h)
    exact Or.inr ⟨rfl, rfl⟩
  | some ct =>
    cases hname : msg.szName with
    | none =>
      rw [htree, hname] at h
      exact absurd h (by simp)
    | some szName =>
      rw [htree, hname] at h
      dsimp only at h
      split at h
      · next hlabel =>
        obtain ⟨rfl, rfl⟩ := Prod.mk.inj (Except.ok.inj h)
        exact Or.inl ⟨rfl, ct, rfl, by rw [hlabel], rfl⟩
      · obtain ⟨rfl, rfl⟩ := Prod.mk.inj (Except.ok.inj h)
        exact Or.inr ⟨rfl, rfl⟩

/-- **What a message can do.** -/
theorem handle_cases {msg : PerfMessage} (h : w.handle msg = .ok (w', retVal)) :
    Handled w msg w' retVal := by
  unfold handle at h
  cases htype : MessageType.ofCode msg.type with
  | none =>
    rw [htype] at h
    obtain ⟨rfl, rfl⟩ := Prod.mk.inj (Except.ok.inj h)
    exact .rejected (by simp [htype]) (by simp [htype])
  | some type =>
    rw [htype] at h
    cases type with
    | eEntry =>
      obtain ⟨ct, hinit, h⟩ := Lib.bind_eq_ok.mp h
      cases hname : msg.entry.szName with
      | none =>
        rw [hname] at h
        exact absurd h (by simp)
      | some szName =>
        rw [hname] at h
        dsimp only at h
        split at h
        · exact absurd h (by simp)
        · next hne =>
          obtain ⟨rfl, rfl⟩ := Prod.mk.inj (Except.ok.inj h)
          exact .entry ct szName htype hinit hname hne
    | eThreshold =>
      have h : w.handleThreshold msg.threshold = (w', retVal) := Except.ok.inj h
      unfold handleThreshold at h
      cases hct : w.tree msg.threshold.pID msg.threshold.tID with
      | none =>
        rw [hct] at h
        obtain ⟨rfl, rfl⟩ := Prod.mk.inj h
        exact .rejected (by simp [htype]) (by simp [htype])
      | some ct =>
        rw [hct] at h
        dsimp only at h
        split at h
        · obtain ⟨rfl, rfl⟩ := Prod.mk.inj h
          exact .threshold ct htype hct
        · obtain ⟨rfl, rfl⟩ := Prod.mk.inj h
          exact .rejected (by simp [htype]) (by simp [htype])
    | eExit =>
      rcases handleExit_cases h with ⟨rfl, ct, hct, hname, rfl⟩ | ⟨rfl, rfl⟩
      · exact .exit ct htype hct hname
      · exact .rejected (by simp [htype]) (by simp [htype])
    | eReportThread =>
      have h : w.handleReportThread msg.report_thread = (w', retVal) := Except.ok.inj h
      unfold handleReportThread at h
      cases hct : w.tree msg.report_thread.pID msg.report_thread.tID with
      | none =>
        rw [hct] at h
        obtain ⟨rfl, rfl⟩ := Prod.mk.inj h
        exact .rejected (by simp [htype]) (by simp [htype])
      | some ct =>
        rw [hct] at h
        obtain ⟨rfl, rfl⟩ := Prod.mk.inj h
        exact .reportThread ct htype hct
    | eReportProcess =>
      have h : w.handleReportProcess msg.report_process = (w', retVal) := Except.ok.inj h
      unfold handleReportProcess at h
      split at h
      · obtain ⟨rfl, rfl⟩ := Prod.mk.inj h
        exact .reportProcess htype
      · obtain ⟨rfl, rfl⟩ := Prod.mk.inj h
        exact .rejected (by simp [htype]) (by simp [htype])
    | eCloseThread =>
      obtain ⟨rfl, rfl⟩ := Prod.mk.inj (Except.ok.inj h)
      exact .closeThread htype
    | eCloseProcess =>
      obtain ⟨rfl, rfl⟩ := Prod.mk.inj (Except.ok.inj h)
      exact .closeProcess htype
    | eNoMessage | eExitQueue | eMaxType =>
      obtain ⟨rfl, rfl⟩ := Prod.mk.inj (Except.ok.inj h)
      exact .rejected (by simp [htype]) (by simp [htype])

end Cases

end World
end RdkPerf

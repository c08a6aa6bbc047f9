import RdkPerf.Lib.Frames
import RdkPerf.Spec.CallTree
import RdkPerf.Spec.Nesting

/-!
# The ledger: what a trace of calls says

The reference the in-process build is compared with. A `ThreadLog` is what happened to one thread
since its tree was created — calls entered, calls left and how long they took, reports — and which
of its calls are open. A `Ledger` keeps one for each thread, and `Ledger.step` books one call of
the interface. There is no node, no counter and no statistic in it: what a tree should show is
computed from the log (`ThreadLog.callTree`), each figure as a fold over the events.

That a path left was entered, and that an open path was entered, are fields: a log cannot be
built otherwise.
-/

namespace RdkPerf

open Lib

/-- An open call: its name, and when it was started. -/
structure Started where
  name : Name
  startTime : UInt64
deriving DecidableEq, Repr

def pathOf (calls : List Started) : Path := calls.map (·.name)

/-- When the innermost of `calls` was started. -/
def startOf : List Started → UInt64
  | [] => 0
  | call :: _ => call.startTime

inductive Event where
  | enter (π : Path)
  | leave (π : Path) (elapsed : UInt64)
  /-- A report, made while `active` was the open path. -/
  | report (active : Path)
deriving DecidableEq, Repr

/-! ## Figures of a log, newest event first -/

/-- Calls entered. -/
def entries : List Event → Nat
  | [] => 0
  | .enter _ :: es => entries es + 1
  | .leave _ _ :: es => entries es
  | .report _ :: es => entries es

/-- Calls entered before the last report. -/
def entriesAtReport : List Event → Nat
  | [] => 0
  | .enter _ :: es => entriesAtReport es
  | .leave _ _ :: es => entriesAtReport es
  | .report _ :: es => entries es

/-- The statistics of the calls at `π`. -/
def statsAt (π : Path) : List Event → TimingStats
  | [] => if π = [] then NodeData.root.stats else (NodeData.fresh (Path.label π)).stats
  | .enter _ :: es => statsAt π es
  | .leave σ elapsed :: es =>
    if σ = π then (statsAt π es).increment elapsed 0 0 else statsAt π es
  | .report _ :: es => (statsAt π es).resetInterval

theorem resetInterval_fresh (name : Name) :
    (NodeData.fresh name).stats.resetInterval = (NodeData.fresh name).stats := rfl

/-- A path nobody left has the statistics of a new node, whatever was reported. -/
theorem statsAt_of_not_left {π : Path} {es : List Event} (hπ : π ≠ [])
    (h : ∀ d, .leave π d ∉ es) : statsAt π es = (NodeData.fresh (Path.label π)).stats := by
  induction es with
  | nil => rw [statsAt, if_neg hπ]
  | cons e es ih =>
    have ih' := ih fun d hd => h d (List.mem_cons_of_mem _ hd)
    cases e with
    | enter σ => exact ih'
    | leave σ d =>
      rw [statsAt, if_neg, ih']
      rintro rfl
      exact h d List.mem_cons_self
    | report active => rw [statsAt, ih', resetInterval_fresh]

/-! ## The log of one thread -/

structure ThreadLog where
  idThread : pthread_t
  threadName : Name
  /-- The open calls, innermost first, each with the handle that closes it. -/
  frames : List (Frame Started)
  events : List Event
  left_entered : ∀ {π d}, .leave π d ∈ events → .enter π ∈ events
  open_entered : ∀ {π}, π <:+ pathOf (Frames.items frames) → π ≠ [] → .enter π ∈ events

namespace ThreadLog

variable (l : ThreadLog)

/-- The open path, innermost first. -/
def active : Path := pathOf (Frames.items l.frames)

def init (idThread : pthread_t) (threadName : Name) : ThreadLog where
  idThread := idThread
  threadName := threadName
  frames := []
  events := []
  left_entered h := absurd h (by simp)
  open_entered h hne := absurd (List.suffix_nil.mp h) hne

def enter (name : Name) (hPerf : Handle) (startTime : UInt64) : ThreadLog :=
  { l with
    frames := Frames.push ⟨name, startTime⟩ hPerf l.frames
    events := .enter (name :: l.active) :: l.events
    left_entered := fun h => by
      rcases List.mem_cons.mp h with h | h
      · exact absurd h (by simp)
      · exact List.mem_cons_of_mem _ (l.left_entered h)
    open_entered := fun h hne => by
      rcases List.suffix_cons_iff.mp h with rfl | h
      · exact List.mem_cons_self
      · exact List.mem_cons_of_mem _ (l.open_entered h hne) }

/-- The trail of a handle is a path that was entered. -/
theorem trail_entered {hPerf : Handle} {calls : List Started}
    (h : Frames.trail hPerf l.frames = some calls) : .enter (pathOf calls) ∈ l.events := by
  obtain ⟨hs, hne⟩ := Frames.trail_suffix h
  refine l.open_entered (hs.map _) fun hnil => hne ?_
  exact List.map_eq_nil_iff.mp hnil

/-- Closing leaves the open path or its tail. -/
theorem release_suffix {hPerf : Handle} {calls : List Started}
    (h : Frames.trail hPerf l.frames = some calls) :
    pathOf (Frames.items (Frames.release hPerf l.frames)) <:+ l.active := by
  rw [Frames.items_release h]
  split
  · exact (List.tail_suffix _).map _
  · exact List.suffix_rfl

/-- The call of `hPerf` ends at `timeStamp`; without such a call nothing happens. -/
def stop (hPerf : Handle) (timeStamp : UInt64) : ThreadLog :=
  match h : Frames.trail hPerf l.frames with
  | none => l
  | some calls =>
    { l with
      frames := Frames.release hPerf l.frames
      events := .leave (pathOf calls) (timeStamp - startOf calls) :: l.events
      left_entered := fun hl => by
        rcases List.mem_cons.mp hl with hl | hl
        · rw [(Event.leave.inj hl).1]
          exact List.mem_cons_of_mem _ (l.trail_entered h)
        · exact List.mem_cons_of_mem _ (l.left_entered hl)
      open_entered := fun ho hne =>
        List.mem_cons_of_mem _ (l.open_entered (ho.trans (l.release_suffix h)) hne) }

def report : ThreadLog :=
  { l with
    events := .report l.active :: l.events
    left_entered := fun h => by
      rcases List.mem_cons.mp h with h | h
      · exact absurd h (by simp)
      · exact List.mem_cons_of_mem _ (l.left_entered h)
    open_entered := fun h hne => List.mem_cons_of_mem _ (l.open_entered h hne) }

/-- The tree the log calls for. -/
def callTree : CallTree where
  idThread := l.idThread
  threadName := l.threadName
  node π := if π = [] ∨ .enter π ∈ l.events then some ⟨statsAt π l.events, -1⟩ else none
  active := l.active
  activityCount := UInt64.ofNat (entries l.events)
  countAtLastReport := UInt64.ofNat (entriesAtReport l.events)

variable {l} {hPerf h' : Handle} {ts : UInt64} {calls : List Started} {name : Name}

theorem stop_of_none (h : Frames.trail hPerf l.frames = none) : l.stop hPerf ts = l := by
  unfold stop
  split
  · rfl
  · next h' => rw [h] at h'; exact absurd h' (by simp)

theorem stop_frames_of_some (h : Frames.trail hPerf l.frames = some calls) :
    (l.stop hPerf ts).frames = Frames.release hPerf l.frames := by
  unfold stop
  split
  · next h' => rw [h] at h'; exact absurd h' (by simp)
  · rfl

theorem stop_frames : (l.stop hPerf ts).frames = Frames.release hPerf l.frames := by
  cases h : Frames.trail hPerf l.frames with
  | none => rw [stop_of_none h, Frames.release_of_not_mem (Frames.trail_eq_none_iff.mp h)]
  | some calls => exact stop_frames_of_some h

theorem stop_events (h : Frames.trail hPerf l.frames = some calls) :
    (l.stop hPerf ts).events = .leave (pathOf calls) (ts - startOf calls) :: l.events := by
  unfold stop
  split
  · next h' => rw [h] at h'; exact absurd h' (by simp)
  · next calls' h' =>
    obtain rfl := Option.some.inj (h.symm.trans h')
    rfl

@[simp] theorem stop_idThread : (l.stop hPerf ts).idThread = l.idThread := by
  unfold stop; split <;> rfl

@[simp] theorem stop_threadName : (l.stop hPerf ts).threadName = l.threadName := by
  unfold stop; split <;> rfl

theorem callTree_node (l : ThreadLog) (π : Path) : l.callTree.node π =
    if π = [] ∨ .enter π ∈ l.events then some ⟨statsAt π l.events, -1⟩ else none := rfl

/-! ### Booking an event is the operation of the same name on the tree -/

theorem callTree_init (tID : pthread_t) (n : Name) : (init tID n).callTree = .init tID n := by
  refine CallTree.ext rfl rfl (funext fun π => ?_) rfl rfl rfl
  show (if π = [] ∨ .enter π ∈ ([] : List Event) then _ else _) = if π = [] then _ else _
  by_cases hπ : π = []
  · subst hπ
    rfl
  · simp [hπ]

theorem callTree_enter : (l.enter name hPerf ts).callTree = l.callTree.enter name := by
  refine CallTree.ext rfl rfl (funext fun π => ?_) rfl ?_ rfl
  · show (if π = [] ∨ .enter π ∈ (.enter (name :: l.active) :: l.events : List Event) then
        some (NodeData.mk (statsAt π l.events) (-1)) else none) =
      if π = name :: l.active then some ((l.callTree.node π).getD (.fresh name))
      else l.callTree.node π
    by_cases hπ : π = name :: l.active
    · rw [if_pos (Or.inr (hπ ▸ List.mem_cons_self)), if_pos hπ]
      have hne : π ≠ [] := by rw [hπ]; simp
      by_cases hent : .enter π ∈ l.events
      · rw [callTree_node, if_pos (Or.inr hent)]
        rfl
      · -- a path entered for the first time
        have hfresh := statsAt_of_not_left hne fun d hd => hent (l.left_entered hd)
        rw [callTree_node, if_neg (by simp [hne, hent]), hfresh, hπ]
        rfl
    · rw [if_neg hπ, callTree_node]
      simp only [List.mem_cons, Event.enter.injEq, hπ, false_or]
  · show UInt64.ofNat (entries l.events + 1) = UInt64.ofNat (entries l.events) + 1
    rw [UInt64.ofNat_add]
    rfl

theorem callTree_stop (h : Frames.trail hPerf l.frames = some calls) :
    (l.stop hPerf ts).callTree = l.callTree.stop (pathOf calls) (ts - startOf calls) := by
  obtain ⟨hs, hne⟩ := Frames.trail_suffix h
  -- a trail is the whole stack as soon as it has the same names
  have hall : pathOf calls = l.active ↔ calls = Frames.items l.frames := by
    refine ⟨fun heq => hs.eq_of_length ?_, fun heq => by rw [heq]; rfl⟩
    simpa [pathOf, active] using congrArg List.length heq
  have hne' : pathOf calls ≠ [] := fun hnil => hne (List.map_eq_nil_iff.mp hnil)
  refine CallTree.ext ?_ ?_ (funext fun π => ?_) ?_ ?_ ?_
  · simp [callTree]
  · simp [callTree, CallTree.stop]
  · rw [callTree_node, stop_events h, CallTree.stop, CallTree.close_node]
    show _ = if π = pathOf calls then (l.callTree.node π).map _ else l.callTree.node π
    simp only [callTree_node, List.mem_cons, reduceCtorEq, false_or, statsAt]
    by_cases hπ : π = pathOf calls
    · rw [if_pos hπ.symm, if_pos hπ]
      split <;> rfl
    · rw [if_neg (Ne.symm hπ), if_neg hπ]
  · show pathOf (Frames.items (l.stop hPerf ts).frames) = _
    rw [stop_frames_of_some h, Frames.items_release h]
    unfold CallTree.stop CallTree.close
    by_cases htop : calls = Frames.items l.frames
    · rw [if_pos htop, if_pos ⟨hne', hall.mpr htop⟩, hall.mpr htop]
      exact List.map_tail
    · rw [if_neg htop, if_neg fun hk => htop (hall.mp hk.2)]
      rfl
  · rw [callTree, stop_events h]
    simp [CallTree.stop, entries, callTree]
  · rw [callTree, stop_events h]
    simp [CallTree.stop, entriesAtReport, callTree]

theorem callTree_report : l.report.callTree = l.callTree.report := by
  refine CallTree.ext rfl rfl (funext fun π => ?_) rfl rfl rfl
  show (if π = [] ∨ .enter π ∈ (.report l.active :: l.events : List Event) then
      some (NodeData.mk (statsAt π l.events).resetInterval (-1)) else none) =
    Option.map _ (l.callTree.node π)
  simp only [List.mem_cons, reduceCtorEq, false_or, callTree]
  split <;> rfl

end ThreadLog

/-! ## All threads of a process -/

structure Ledger where
  /-- Handles handed out. -/
  next : Handle
  /-- Handles handed out and not given back. -/
  opened : List Handle
  registered : Bool
  thread : pthread_t → Option ThreadLog

namespace Ledger

def init : Ledger := ⟨0, [], false, fun _ => none⟩

def setThread (L : Ledger) (tID : pthread_t) (l : Option ThreadLog) : Ledger :=
  { L with thread := fun s => if s = tID then l else L.thread s }

/-- A report of the process: the log of a thread whose tree is inactive is closed, the others
    book a report. -/
def reportThreads (L : Ledger) : Ledger :=
  { L with
    thread := fun s =>
      (L.thread s).bind fun l => if l.callTree.inactive then none else some l.report }

/-- Book one call of the interface, made in the process `pID`. -/
def step (pID : pid_t) (L : Ledger) : Op → Ledger
  | .start caller szName _ env =>
    let l := (L.thread caller.tid).getD (.init caller.tid caller.threadName.bytes)
    { L.setThread caller.tid (some (l.enter szName.bytes L.next env.timeStamp)) with
      next := L.next + 1
      opened := L.next :: L.opened
      registered := true }
  | .stop _ hPerf env =>
    { L with
      opened := L.opened.filter (· ≠ hPerf)
      thread := fun s => (L.thread s).map (·.stop hPerf env.timeStamp) }
  | .setThreshold _ _ _ => L
  | .reportProcess _ p _ => if p = pID then L.reportThreads else L
  | .reportThread _ tID => L.setThread tID ((L.thread tID).map (·.report))
  | .closeThread _ tID => L.setThread tID none
  | .closeProcess _ p =>
    if p = pID then { L with registered := false, thread := fun _ => none } else L

def run (pID : pid_t) (ops : List Op) : Ledger := ops.foldl (step pID) init

/-- The frames of a thread; a thread without a log has none. -/
def frames (L : Ledger) (tID : pthread_t) : List (Frame Started) :=
  (L.thread tID).elim [] ThreadLog.frames

/-- The trees the ledger calls for: those of the one process. -/
def world (L : Ledger) (pID : pid_t) : World where
  registered p := p = pID && L.registered
  tree p s := if p = pID then (L.thread s).map (·.callTree) else none

section Lemmas

variable (L : Ledger) (pID p : pid_t) (tID s : pthread_t)

theorem run_concat (ops : List Op) (op : Op) :
    run pID (ops ++ [op]) = (run pID ops).step pID op := by
  simp [run]

@[simp] theorem setThread_thread (l : Option ThreadLog) :
    (L.setThread tID l).thread s = if s = tID then l else L.thread s := rfl
@[simp] theorem setThread_registered (l : Option ThreadLog) :
    (L.setThread tID l).registered = L.registered := rfl
@[simp] theorem setThread_next (l : Option ThreadLog) : (L.setThread tID l).next = L.next := rfl
@[simp] theorem setThread_opened (l : Option ThreadLog) :
    (L.setThread tID l).opened = L.opened := rfl

variable {L tID} in
theorem frames_of_some {l : ThreadLog} (hl : L.thread tID = some l) : L.frames tID = l.frames := by
  rw [frames, hl]
  rfl

theorem frames_start (caller : Caller) (szName : CString) (nThresholdInUS : Option UInt32)
    (env : Env) : (L.step pID (.start caller szName nThresholdInUS env)).frames s =
      if s = caller.tid then Frames.push ⟨szName.bytes, env.timeStamp⟩ L.next (L.frames caller.tid)
      else L.frames s := by
  simp only [frames, step, setThread_thread]
  split
  · cases L.thread caller.tid <;> rfl
  · rfl

theorem world_tree_self : (L.world pID).tree pID s = (L.thread s).map (·.callTree) := if_pos rfl

theorem world_setThread (l : Option ThreadLog) :
    (L.setThread tID l).world pID = (L.world pID).set pID tID (l.map (·.callTree)) := by
  refine World.ext rfl (funext fun p => funext fun s => ?_)
  rw [World.set_tree]
  unfold world
  by_cases hp : p = pID
  · by_cases hs : s = tID
    · simp [hp, hs]
    · simp [hp, hs]
  · simp [hp]

theorem world_reportThreads :
    L.reportThreads.world pID = (L.world pID).reportProcess pID := by
  refine World.ext rfl (funext fun p => funext fun s => ?_)
  rw [World.reportProcess_tree]
  unfold world reportThreads
  by_cases hp : p = pID
  · simp only [hp, if_true]
    cases L.thread s with
    | none => rfl
    | some l =>
      simp only [Option.bind_some, Option.map_some]
      split
      · rfl
      · rw [Option.map_some, ThreadLog.callTree_report]
  · simp [hp]

/-- A report keeps the frames: a log it drops has none. -/
theorem frames_reportThreads : L.reportThreads.frames s = L.frames s := by
  show ((L.thread s).bind fun l => if l.callTree.inactive then none else some l.report).elim []
    ThreadLog.frames = (L.thread s).elim [] ThreadLog.frames
  cases L.thread s with
  | none => rfl
  | some l =>
    rw [Option.bind_some, Option.elim_some]
    split
    · -- an inactive tree has nothing open
      next hin =>
      simp only [CallTree.inactive, decide_eq_true_eq] at hin
      have hnil : Frames.items l.frames = [] := List.map_eq_nil_iff.mp hin.2
      exact (List.map_eq_nil_iff.mp hnil).symm
    · rfl

/-- A start is booked where the tree is found or made, and entered there. -/
theorem world_start {L : Ledger} {caller : Caller} {ct : CallTree}
    (hct : (L.world p).treeOrInit p caller.tid (.ok caller.threadName.bytes) = .ok ct)
    (szName : CString) (nThresholdInUS : Option UInt32) (env : Env) :
    ct.active = pathOf (Frames.items (L.frames caller.tid)) ∧
      ((L.world p).register p).set p caller.tid (some (ct.enter szName.bytes)) =
        (L.step pID (.start caller szName nThresholdInUS env)).world p := by
  let l := (L.thread caller.tid).getD (.init caller.tid caller.threadName.bytes)
  obtain ⟨rfl, hframes⟩ : l.callTree = ct ∧ l.frames = L.frames caller.tid := by
    unfold World.treeOrInit at hct
    rw [world_tree_self] at hct
    cases hl : L.thread caller.tid with
    | none =>
      rw [hl] at hct
      obtain rfl := Except.ok.inj hct
      refine ⟨?_, ?_⟩
      · simp only [l, hl, Option.getD_none, ThreadLog.callTree_init]
      · simp only [l, hl, frames, Option.getD_none, Option.elim_none, ThreadLog.init]
    | some l₀ =>
      rw [hl] at hct
      obtain rfl := Except.ok.inj hct
      refine ⟨?_, ?_⟩
      · simp only [l, hl, Option.getD_some]
      · simp only [l, hl, frames, Option.getD_some, Option.elim_some]
  have henter : (l.enter szName.bytes L.next env.timeStamp).callTree =
      l.callTree.enter szName.bytes := ThreadLog.callTree_enter
  refine ⟨by rw [← hframes]; rfl, World.ext (funext fun q => ?_) (funext fun q => funext fun u => ?_)⟩
  · show (decide (q = p) || (decide (q = p) && L.registered)) = (decide (q = p) && true)
    cases decide (q = p) <;> simp
  · rw [World.set_tree, ← henter]
    show _ = if q = p then Option.map _ (if u = caller.tid then some _ else L.thread u) else none
    by_cases hq : q = p
    · by_cases hu : u = caller.tid
      · simp [hq, hu, l]
      · simp [hq, hu, world]
    · simp [hq, world]

theorem world_closeProcess (caller : Caller) : (L.world pID).removeProcess p =
    (L.step pID (.closeProcess caller p)).world pID := by
  simp only [step]
  by_cases hp : p = pID
  · rw [if_pos hp, hp]
    refine World.ext (funext fun q => ?_) (funext fun q => funext fun u => ?_)
    · rw [World.removeProcess_registered]
      by_cases hq : q = pID <;> simp [world, hq]
    · rw [World.removeProcess_tree]
      by_cases hq : q = pID <;> simp [world, hq]
  · -- nothing of another process is registered
    rw [if_neg hp]
    refine World.ext (funext fun q => ?_) (funext fun q => funext fun u => ?_)
    · rw [World.removeProcess_registered]
      by_cases hq : q = pID
      · simp [world, hq, Ne.symm hp]
      · simp [world, hq]
    · rw [World.removeProcess_tree]
      by_cases hq : q = pID
      · simp [world, hq, Ne.symm hp]
      · simp [world, hq]

/-- What one call can do to the log of a thread that still has one after it. -/
theorem step_thread {L : Ledger} {op : Op} {l' : ThreadLog}
    (h : (L.step pID op).thread tID = some l') :
    (∃ caller szName nThresholdInUS env, op = .start caller szName nThresholdInUS env ∧
      caller.tid = tID ∧ l' = ((L.thread tID).getD (.init tID caller.threadName.bytes)).enter
        szName.bytes L.next env.timeStamp) ∨
    ∃ l, L.thread tID = some l ∧ (l' = l ∨ (op.isReport ∧ l' = l.report) ∨
      ∃ caller hPerf env, op = .stop caller hPerf env ∧ l' = l.stop hPerf env.timeStamp) := by
  cases op with
  | start caller szName nThresholdInUS env =>
    simp only [step, setThread_thread] at h
    split at h
    · next htid =>
      subst htid
      exact Or.inl ⟨caller, szName, nThresholdInUS, env, rfl, rfl, (Option.some.inj h).symm⟩
    · exact Or.inr ⟨l', h, Or.inl rfl⟩
  | stop caller hPerf env =>
    obtain ⟨l, hl, rfl⟩ := Option.map_eq_some_iff.mp h
    exact Or.inr ⟨l, hl, Or.inr (Or.inr ⟨caller, hPerf, env, rfl, rfl⟩)⟩
  | setThreshold caller hPerf nThresholdInUS => exact Or.inr ⟨l', h, Or.inl rfl⟩
  | reportProcess caller p env =>
    simp only [step] at h
    split at h
    · obtain ⟨l, hl, hif⟩ := Option.bind_eq_some_iff.mp h
      split at hif
      · exact absurd hif (by simp)
      · exact Or.inr ⟨l, hl, Or.inr (Or.inl ⟨rfl, (Option.some.inj hif).symm⟩)⟩
    · exact Or.inr ⟨l', h, Or.inl rfl⟩
  | reportThread caller s =>
    simp only [step, setThread_thread] at h
    split at h
    · next hs =>
      obtain ⟨l, hl, rfl⟩ := Option.map_eq_some_iff.mp h
      exact Or.inr ⟨l, hs ▸ hl, Or.inr (Or.inl ⟨rfl, rfl⟩)⟩
    · exact Or.inr ⟨l', h, Or.inl rfl⟩
  | closeThread caller s =>
    simp only [step, setThread_thread] at h
    split at h
    · exact absurd h (by simp)
    · exact Or.inr ⟨l', h, Or.inl rfl⟩
  | closeProcess caller p =>
    simp only [step] at h
    split at h
    · exact absurd h (by simp)
    · exact Or.inr ⟨l', h, Or.inl rfl⟩

/-- **What entering, leaving and reporting preserve holds of every log.** -/
theorem run_logs {P : ThreadLog → Prop} (hinit : ∀ tID n, P (.init tID n))
    (henter : ∀ l name hPerf ts, P l → P (l.enter name hPerf ts))
    (hstop : ∀ l hPerf ts, P l → P (l.stop hPerf ts)) (hreport : ∀ l, P l → P l.report)
    {ops : List Op} {tID : pthread_t} {l : ThreadLog} (hl : (run pID ops).thread tID = some l) :
    P l := by
  induction ops using List.reverseRecOn generalizing tID l with
  | nil => exact absurd hl (by simp [run, init])
  | append_singleton ops op ih =>
    rw [run_concat] at hl
    rcases step_thread pID tID hl with ⟨caller, szName, nThr, env, -, -, rfl⟩ | ⟨l₀, hl₀, h⟩
    · refine henter _ _ _ _ ?_
      cases hth : (run pID ops).thread tID with
      | none => exact hinit _ _
      | some l₀ => exact ih hth
    · rcases h with rfl | ⟨-, rfl⟩ | ⟨caller, hPerf, env, -, rfl⟩
      · exact ih hl₀
      · exact hreport _ (ih hl₀)
      · exact hstop _ _ _ (ih hl₀)

end Lemmas
end Ledger
end RdkPerf

import RdkPerf.Lib.Listing
import RdkPerf.Spec.Ledger

/-!
# What the log should show

The reports are all that anyone gets to see of the trees. Here is what they should say, of a
`World` and of a trace: a tree shows one line for each of its paths, in the order a walk meets
them; a process shows its trees in the order of their thread ids, with the times its clock has
counted since it was marked; a stop shows what is below its call if it took too long.

A `CallTree` is a function of paths, so its lines are given by a relation; it holds of one list of
lines only (`Shown.unique`). Nothing here knows of nodes, recursion or maps.
-/

namespace RdkPerf

open Lib

namespace Printed

/-- The line as it is read: the address of the tree that prints it does not show. -/
def seen : Printed → Printed
  | .tree _ idThread threadName msIntervalTime => .tree 0 idThread threadName msIntervalTime
  | line => line

/-- What a full report prints of a node, and what one that shows only the last call does. -/
def ofNode (bShowOnlyDelta : Bool) (nLevel : UInt32) (d : NodeData) : Printed :=
  if bShowOnlyDelta then .delta nLevel d.stats.elementName d.stats.nLastDelta
  else .totals nLevel d.stats

end Printed

namespace CallTree

/-- A report of what is at `π` and below it: a line for each path, indented by its length. -/
def Shown (ct : CallTree) (bShowOnlyDelta : Bool) (π : Path) (lines : List Printed) : Prop :=
  ∃ paths, Listing (fun τ => ct.node (τ ++ π) ≠ none) paths ∧
    lines = paths.filterMap fun τ =>
      (ct.node (τ ++ π)).map (.ofNode bShowOnlyDelta (UInt32.ofNat τ.length))

/-- The report of a whole tree, under the line that names it. -/
def Reported (ct : CallTree) (msIntervalTime : UInt32) (lines : List Printed) : Prop :=
  ∃ below, ct.Shown false [] below ∧
    lines = .tree 0 ct.idThread.toUInt32 ct.shownName msIntervalTime :: below

theorem Shown.unique {ct : CallTree} {b : Bool} {π : Path} {lines lines' : List Printed}
    (h : ct.Shown b π lines) (h' : ct.Shown b π lines') : lines = lines' := by
  obtain ⟨paths, hpaths, rfl⟩ := h
  obtain ⟨paths', hpaths', rfl⟩ := h'
  rw [hpaths.unique hpaths']

theorem Reported.unique {ct : CallTree} {ms : UInt32} {lines lines' : List Printed}
    (h : ct.Reported ms lines) (h' : ct.Reported ms lines') : lines = lines' := by
  obtain ⟨below, hbelow, rfl⟩ := h
  obtain ⟨below', hbelow', rfl⟩ := h'
  rw [hbelow.unique hbelow']

end CallTree

/-! ## A process -/

/-- The reading each process's clock was marked with last. -/
abbrev LastMark := pid_t → Reading

/-- A clock that was marked with `r`. -/
def PerfClock.marked (r : Reading) : PerfClock := ({} : PerfClock).now .marker r

namespace LastMark

def init : LastMark := fun _ => {}

def set (mark : LastMark) (pID : pid_t) (r : Reading) : LastMark :=
  fun p => if p = pID then r else mark p

end LastMark

namespace World

/-- A thread that has no tree yet marks the clock of its process. -/
def markEntered (w : World) (mark : LastMark) (pID : pid_t) (tID : pthread_t) (env : Env) :
    LastMark :=
  if (w.tree pID tID).isNone then mark.set pID env.marker else mark

/-- A report of a thread, which shows its tree if it has one. The interval is not counted. -/
def ThreadReport (w : World) (pID : pid_t) (tID : pthread_t) (lines : List Printed) : Prop :=
  (∀ ct, w.tree pID tID = some ct → ct.Reported 0 lines) ∧ (w.tree pID tID = none → lines = [])

/-- The report of the trees that `w` has of the process, with what its clock has counted at
    `elapsed` since the reading `mark`. -/
def ProcessReported (w : World) (pID : pid_t) (mark elapsed : Reading) (tIDs : List pthread_t)
    (lines : List Printed) : Prop :=
  tIDs.Pairwise (fun s t => compare s t = .lt) ∧ (∀ tID, tID ∈ tIDs ↔ w.tree pID tID ≠ none) ∧
  let clock := (PerfClock.marked mark).now .elapsed elapsed
  ∃ blocks, List.Forall₂ (fun tID block => ∃ ct, w.tree pID tID = some ct ∧
      ct.Reported (clock.getWallClock .millisecond).toUInt32 block) tIDs blocks ∧
    lines = .process tIDs.length pID.toUInt32 ::
      if tIDs = [] then []
      else .cpu (clock.getUserCPU .millisecond) (clock.getSystemCPU .millisecond) ::
        blocks.flatten

/-- A report of a process and the mark it leaves: the inactive trees go first, and without a tree
    left the clock is not looked at. A process that is not registered shows nothing. -/
def Report (w : World) (mark : LastMark) (pID : pid_t) (env : Env) (lines : List Printed)
    (mark' : LastMark) : Prop :=
  if w.registered pID then
    ∃ tIDs, (w.closeInactive pID).ProcessReported pID (mark pID) env.elapsed tIDs lines ∧
      mark' = if tIDs = [] then mark else mark.set pID env.marker
  else lines = [] ∧ mark' = mark

/-- What the service prints when it handles a message, whatever that is. -/
def MessagePrints (w : World) (mark : LastMark) (msg : PerfMessage) (env : Env)
    (lines : List Printed) (mark' : LastMark) : Prop :=
  match MessageType.ofCode msg.type with
  | some .eEntry => lines = [] ∧ mark' = w.markEntered mark msg.entry.pID msg.entry.tID env
  | some .eReportThread =>
    w.ThreadReport msg.report_thread.pID msg.report_thread.tID lines ∧ mark' = mark
  | some .eReportProcess => w.Report mark msg.report_process.pID env lines mark'
  | _ => lines = [] ∧ mark' = mark

section Unique

variable {w : World} {pID : pid_t} {lines lines' : List Printed}

theorem ThreadReport.unique {tID : pthread_t} (h : w.ThreadReport pID tID lines)
    (h' : w.ThreadReport pID tID lines') : lines = lines' := by
  cases hct : w.tree pID tID with
  | none => rw [h.2 hct, h'.2 hct]
  | some ct => exact (h.1 ct hct).unique (h'.1 ct hct)

theorem ProcessReported.unique {mark elapsed : Reading} {tIDs tIDs' : List pthread_t}
    (h : w.ProcessReported pID mark elapsed tIDs lines)
    (h' : w.ProcessReported pID mark elapsed tIDs' lines') : tIDs = tIDs' ∧ lines = lines' := by
  obtain ⟨hsorted, hmem, blocks, hblocks, rfl⟩ := h
  obtain ⟨hsorted', hmem', blocks', hblocks', rfl⟩ := h'
  obtain rfl : tIDs = tIDs' :=
    ascending_unique (f := id) hsorted hsorted' fun tID => (hmem tID).trans (hmem' tID).symm
  have hsame : blocks = blocks' := by
    refine Relator.RightUnique.forall₂ ?_ hblocks hblocks'
    rintro tID block block' ⟨ct, hct, hblock⟩ ⟨ct', hct', hblock'⟩
    obtain rfl := Option.some.inj (hct.symm.trans hct')
    exact hblock.unique hblock'
  rw [hsame]
  exact ⟨rfl, rfl⟩

theorem Report.unique {mark mark₁ mark₂ : LastMark} {env : Env}
    (h : w.Report mark pID env lines mark₁) (h' : w.Report mark pID env lines' mark₂) :
    lines = lines' ∧ mark₁ = mark₂ := by
  unfold Report at h h'
  split at h
  · next hreg =>
    rw [if_pos hreg] at h'
    obtain ⟨tIDs, hlines, rfl⟩ := h
    obtain ⟨tIDs', hlines', rfl⟩ := h'
    obtain ⟨rfl, rfl⟩ := hlines.unique hlines'
    exact ⟨rfl, rfl⟩
  · next hreg =>
    rw [if_neg hreg] at h'
    exact ⟨h.1.trans h'.1.symm, h.2.trans h'.2.symm⟩

theorem MessagePrints.unique {mark mark₁ mark₂ : LastMark} {msg : PerfMessage} {env : Env}
    (h : w.MessagePrints mark msg env lines mark₁)
    (h' : w.MessagePrints mark msg env lines' mark₂) : lines = lines' ∧ mark₁ = mark₂ := by
  unfold MessagePrints at h h'
  cases htype : MessageType.ofCode msg.type with
  | none =>
    rw [htype] at h h'
    exact ⟨h.1.trans h'.1.symm, h.2.trans h'.2.symm⟩
  | some type =>
    rw [htype] at h h'
    cases type with
    | eReportThread => exact ⟨h.1.unique h'.1, h.2.trans h'.2.symm⟩
    | eReportProcess => exact h.unique h'
    | eEntry | eThreshold | eExit | eCloseThread | eCloseProcess | eNoMessage | eExitQueue
    | eMaxType => exact ⟨h.1.trans h'.1.symm, h.2.trans h'.2.symm⟩

end Unique

end World
end RdkPerf

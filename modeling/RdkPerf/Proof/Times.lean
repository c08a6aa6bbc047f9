import RdkPerf.Lib.Timing
import RdkPerf.Proof.Nested

/-!
# The times of a call tree

In a well-nested run whose clock readings do not decrease along a thread, the times in the
thread's tree account for each other: at a path that is not open the calls one level below took no
longer than the calls at the path, and no path took longer than has passed between the first and
the last reading. So no sum of elapsed times wraps.

The account itself is kept in `Lib/Timing.lean`, for calls in general. Here the log of a thread is
read as such calls (`ThreadLog.Timed`), and the result is carried to the nodes.
-/

namespace RdkPerf

open Lib

/-! ## The clock of a thread -/

/-- What the starts and stops of a thread read, oldest first. -/
def readings (tID : pthread_t) (ops : List Op) : List UInt64 :=
  ops.filterMap fun op => (op.reading.filter (·.1 = tID)).map Prod.snd

def firstReading (tID : pthread_t) (ops : List Op) : UInt64 := (readings tID ops).headD 0

def lastReading (tID : pthread_t) (ops : List Op) : UInt64 := (readings tID ops).getLastD 0

/-- No thread reads less than it has read before. -/
def ClocksAdvance (ops : List Op) : Prop :=
  ∀ tID, (readings tID ops).Pairwise (· ≤ ·)

section Readings

variable {ops : List Op} {op : Op} {tID : pthread_t} {ts : UInt64}

theorem readings_other (h : ∀ ts, op.reading ≠ some (tID, ts)) :
    readings tID (ops ++ [op]) = readings tID ops := by
  have hnone : (op.reading.filter (·.1 = tID)).map Prod.snd = none := by
    cases hr : op.reading with
    | none => rfl
    | some r =>
      rw [Option.filter_some, if_neg]
      · rfl
      · intro hr'
        obtain ⟨u, ts⟩ := r
        obtain rfl : u = tID := of_decide_eq_true hr'
        exact h ts hr
  rw [readings, List.filterMap_append, List.filterMap_cons, hnone]
  exact List.append_nil _

theorem readings_own (h : op.reading = some (tID, ts)) :
    readings tID (ops ++ [op]) = readings tID ops ++ [ts] := by
  rw [readings, List.filterMap_append, List.filterMap_cons, h, Option.filter_some,
    if_pos (decide_eq_true rfl)]
  rfl

/-- With one thread its own clock is the only one. -/
theorem clocksAdvance_of_thread (tID : pthread_t) (honly : ∀ op ∈ ops, ∀ r ∈ op.reading, r.1 = tID)
    (h : (readings tID ops).Pairwise (· ≤ ·)) : ClocksAdvance ops := by
  intro u
  by_cases hu : u = tID
  · exact hu ▸ h
  · have hnone : readings u ops = [] := by
      refine List.filterMap_eq_nil_iff.mpr fun op hop => ?_
      rw [Option.map_eq_none_iff, Option.filter_eq_none_iff]
      intro r hr hown
      exact hu ((of_decide_eq_true hown).symm.trans (honly op hop r hr))
    rw [hnone]
    exact List.Pairwise.nil

theorem ClocksAdvance.left (h : ClocksAdvance (ops ++ [op])) : ClocksAdvance ops := by
  intro tID
  have hall := h tID
  rw [readings, List.filterMap_append] at hall
  exact (List.pairwise_append.mp hall).1

/-- The thread's next reading is its last one from now on, and none before it was greater. -/
theorem ClocksAdvance.own (h : ClocksAdvance (ops ++ [op])) (hr : op.reading = some (tID, ts)) :
    lastReading tID (ops ++ [op]) = ts ∧ (∀ ts' ∈ readings tID ops, ts' ≤ ts) ∧
      (readings tID ops ≠ [] → firstReading tID (ops ++ [op]) = firstReading tID ops) := by
  have hall := h tID
  rw [readings_own hr] at hall
  refine ⟨?_, fun ts' hts' => ?_, fun hne => ?_⟩
  · rw [lastReading, readings_own hr, List.getLastD_concat]
  · exact (List.pairwise_append.mp hall).2.2 ts' hts' ts (by simp)
  · rw [firstReading, firstReading, readings_own hr]
    obtain ⟨ts₀, rest, hts₀⟩ := List.exists_cons_of_ne_nil hne
    rw [hts₀]
    rfl

end Readings
/-! ## The log as timed calls -/

def Event.ended : Event → Option (Path × Nat)
  | .leave π elapsed => some (π, elapsed.toNat)
  | _ => none

namespace ThreadLog

def ended (l : ThreadLog) : List (Path × Nat) := l.events.filterMap Event.ended

def started (l : ThreadLog) : List (Name × Nat) :=
  (Frames.items l.frames).map fun call => (call.name, call.startTime.toNat)

/-- The times of the log account for each other. -/
def Timed (l : ThreadLog) (first now : UInt64) : Prop :=
  Accounts first.toNat now.toNat l.ended l.started

variable {l : ThreadLog} {first now ts : UInt64} {name : Name} {h : Handle} {π : Path}

theorem started_names (l : ThreadLog) : l.started.map Prod.fst = l.active := by
  unfold started active pathOf
  rw [List.map_map]
  rfl

theorem timeAt_ended (π : Path) (l : ThreadLog) :
    timeAt π l.ended = ((elapsedAt π l.events).map UInt64.toNat).sum := by
  unfold ended
  induction l.events with
  | nil => rfl
  | cons e es ih =>
    cases e with
    | enter σ => exact ih
    | report active => exact ih
    | leave σ d =>
      rw [List.filterMap_cons, elapsedAt]
      show (if σ = π then d.toNat + _ else _) = _
      split
      · rw [ih, List.map_cons, List.sum_cons]
      · exact ih

theorem Timed.init (tID : pthread_t) (n : Name) : (ThreadLog.init tID n).Timed first now :=
  Accounts.init first.toNat now.toNat

theorem Timed.later (hl : l.Timed first now) (hfirst : first ≤ now) (hnow : now ≤ ts) :
    l.Timed first ts :=
  Accounts.later hl hfirst hnow

theorem Timed.enter (hl : l.Timed first ts) (hfirst : first ≤ ts) :
    (l.enter name h ts).Timed first ts :=
  Accounts.start hl hfirst name

theorem Timed.stop (hl : l.Timed first ts) {f : Frame Started} {fs : List (Frame Started)}
    (hfs : l.frames = f :: fs) (ht : Frames.trail h l.frames = some (Frames.items l.frames))
    (hrel : Frames.release h l.frames = fs) : (l.stop h ts).Timed first ts := by
  have hstarted : l.started = (f.item.name, f.item.startTime.toNat) ::
      (Frames.items fs).map fun call => (call.name, call.startTime.toNat) := by
    rw [started, hfs]
    rfl
  have hrest : (l.stop h ts).started =
      (Frames.items fs).map fun call => (call.name, call.startTime.toNat) := by
    rw [started, stop_frames, hrel]
  unfold Timed at hl ⊢
  rw [hstarted] at hl
  -- the clock has not gone back since the call started, so the difference does not wrap
  have hle : f.item.startTime ≤ ts := (hl.since _ List.mem_cons_self).2
  have hstop := hl.stop
  have hended : (l.stop h ts).ended = (pathOf (Frames.items l.frames),
      ts.toNat - f.item.startTime.toNat) :: l.ended := by
    rw [ended, stop_events ht, List.filterMap_cons]
    show (_, (ts - startOf (Frames.items l.frames)).toNat) :: _ = _
    rw [hfs]
    show (_, (ts - f.item.startTime).toNat) :: _ = _
    rw [UInt64.toNat_sub_of_le _ _ hle]
    rfl
  rw [hended, hrest]
  rw [← hstarted, started_names] at hstop
  exact hstop

end ThreadLog
/-! ## Runs -/

section Run

variable {pID : pid_t} {ops : List Op} {n : Nesting} {s : InProc} {tID : pthread_t}
  {l : ThreadLog}

theorem ClocksAdvance.first_le_last (h : ClocksAdvance ops) (hne : readings tID ops ≠ []) :
    firstReading tID ops ≤ lastReading tID ops := by
  have hall := h tID
  unfold firstReading lastReading
  obtain ⟨init, ts, hinit⟩ := List.eq_nil_or_concat' _ |>.resolve_left hne
  rw [hinit] at hall ⊢
  rw [List.getLastD_concat]
  cases init with
  | nil => exact UInt64.le_refl _
  | cons ts₀ rest => exact (List.pairwise_append.mp hall).2.2 ts₀ List.mem_cons_self ts (by simp)

/-- A start or a stop of the thread: the clock is read, and has not gone back. -/
theorem ThreadLog.Timed.read {op : Op} {ts : UInt64} (hclocks : ClocksAdvance (ops ++ [op]))
    (hr : op.reading = some (tID, ts)) (hne : readings tID ops ≠ [])
    (hl : l.Timed (firstReading tID ops) (lastReading tID ops)) :
    l.Timed (firstReading tID (ops ++ [op])) ts := by
  obtain ⟨-, hle, hfirst⟩ := hclocks.own hr
  rw [hfirst hne]
  refine hl.later (hclocks.left.first_le_last hne) (hle _ ?_)
  unfold lastReading
  rw [List.getLastD_eq_getLast?, List.getLast?_eq_some_getLast hne]
  exact List.getLast_mem hne

/-- **The times of every log account for each other**, between the readings of its thread. -/
theorem run_timed (hops : ∀ op ∈ ops, op.isMeasure ∨ op.isReport)
    (hn : Nesting.run ops = some n) (hclocks : ClocksAdvance ops)
    (hs : InProc.run pID ops = .ok s) (hl : (Ledger.run pID ops).thread tID = some l) :
    readings tID ops ≠ [] ∧ l.Timed (firstReading tID ops) (lastReading tID ops) := by
  refine run_nested_threads (P := fun ops tID l => ClocksAdvance ops → readings tID ops ≠ [] ∧
    l.Timed (firstReading tID ops) (lastReading tID ops)) ?_ ?_ ?_ ?_ hops hn hs hl hclocks
  · intro ops caller szName nThr env h l hold hclocks
    have hr : (Op.start caller szName nThr env).reading = some (caller.tid, env.timeStamp) := rfl
    have hne : readings caller.tid (ops ++ [.start caller szName nThr env]) ≠ [] := by
      rw [readings_own hr]
      simp
    have hfirst := hclocks.first_le_last hne
    obtain ⟨hlast, -, -⟩ := hclocks.own hr
    rw [hlast] at hfirst ⊢
    refine ⟨hne, ThreadLog.Timed.enter ?_ hfirst⟩
    rcases hold with hold | ⟨n, rfl⟩
    · obtain ⟨hne₀, hl⟩ := hold hclocks.left
      exact hl.read hclocks hr hne₀
    · exact .init caller.tid n
  · intro ops caller h env l f fs hfs ht hrel hold hclocks
    have hr : (Op.stop caller h env).reading = some (caller.tid, env.timeStamp) := rfl
    obtain ⟨hne₀, hl⟩ := hold hclocks.left
    obtain ⟨hlast, -, -⟩ := hclocks.own hr
    rw [hlast, readings_own hr]
    exact ⟨by simp, (hl.read hclocks hr hne₀).stop hfs ht hrel⟩
  · intro ops op tID l hop hold hclocks
    have hother : ∀ ts, op.reading ≠ some (tID, ts) := by
      intro ts
      cases op <;> simp_all [Op.isReport, Op.reading]
    rw [firstReading, lastReading, readings_other hother]
    exact hold hclocks.left
  · intro ops op tID l hother hold hclocks
    rw [firstReading, lastReading, readings_other hother]
    exact hold hclocks.left

end Run

/-! ## At the nodes -/

/-- `nTotalTime` of the node at `p`. -/
def Mem.totalTime (m : Mem) (p : NodePtr) : Nat :=
  ((m.nodes.get p).map (·.stats.nTotalTime.toNat)).getD 0

/-- The times a tree shows, against the log of its thread and the time that has passed. -/
structure TimesAccount (m : Mem) (tree : PerfTree) (l : ThreadLog) (span : Nat) : Prop where
  /-- No total wraps: it is the sum of the elapsed times as numbers. -/
  exact : ∀ r π node, tree.rootNode = some r → m.nodeAt r π = some node →
    node.stats.nTotalTime.toNat = ((elapsedAt π l.events).map UInt64.toNat).sum
  bounded : ∀ r p node, tree.rootNode = some r → Reaches (childOf m) r p →
    m.nodes.get p = some node → node.stats.nTotalTime.toNat ≤ span
  below : ∀ r p node, tree.rootNode = some r → Reaches (childOf m) r p →
    m.nodes.get p = some node → p ≠ r → p ∉ tree.activeNode →
      (node.childNodes.toList.map fun entry => m.totalTime entry.2).sum ≤
        node.stats.nTotalTime.toNat

section Nodes

variable {m : Mem} {l : ThreadLog} {t : TreePtr} {r p : NodePtr} {π : Path} {node : PerfNode}
  {first now : UInt64}

/-- The total of a path is what the calls at it took: nothing wraps. -/
theorem ThreadLog.Timed.total (hl : l.Timed first now) (hroot : ∀ d, .leave [] d ∉ l.events)
    (π : Path) : (statsAt π l.events).nTotalTime.toNat = timeAt π l.ended ∧
      timeAt π l.ended ≤ now.toNat - first.toNat := by
  have hle : timeAt π l.ended ≤ now.toNat - first.toNat := by
    by_cases hπ : π = []
    · -- the root is never left
      have hnone : elapsedAt π l.events = [] :=
        List.eq_nil_iff_forall_not_mem.mpr fun d hd => hroot d (hπ ▸ mem_elapsedAt.mp hd)
      rw [timeAt_ended, hnone]
      exact Nat.zero_le _
    · exact (Nat.le_add_right _ _).trans (Accounts.le_span hl hπ)
  refine ⟨?_, hle⟩
  rw [statsAt_time, timeAt_ended, toNat_sum]
  apply Nat.mod_eq_of_lt
  rw [← timeAt_ended]
  have := now.toNat_lt
  omega

/-- The tree that a log calls for shows the figures of the log. -/
theorem Tracks.stats_eq (hT : Tracks m t r l.callTree) (hp : walk (childOf m) r π = some p)
    (hnode : m.nodes.get p = some node) : node.stats = statsAt π l.events := by
  obtain ⟨n, hn, -, -, hdata⟩ := hT.live hp
  obtain rfl := Option.some.inj (hnode.symm.trans hn)
  rw [ThreadLog.callTree_node] at hdata
  split at hdata
  · exact (congrArg NodeData.stats (Option.some.inj hdata)).symm
  · exact absurd hdata (by simp)

/-- The children of a node show what the calls one level below its path took. -/
theorem Tracks.totalTime_children (hT : Tracks m t r l.callTree) (hl : l.Timed first now)
    (hroot : ∀ d, .leave [] d ∉ l.events) (hp : walk (childOf m) r π = some p)
    (hnode : m.nodes.get p = some node) :
    (node.childNodes.toList.map fun entry => m.totalTime entry.2) =
      (node.childNodes.toList.map Prod.fst).map fun name => timeAt (name :: π) l.ended := by
  rw [List.map_map]
  refine List.map_congr_left fun entry hentry => ?_
  have hedge : childOf m p entry.1 = some entry.2 := by
    unfold childOf
    rw [hnode]
    exact mem_entries.mp hentry
  have hc : walk (childOf m) r (entry.1 :: π) = some entry.2 := by
    rw [walk_cons, hp]
    exact hedge
  obtain ⟨child, hchild, -⟩ := hT.live hc
  rw [Mem.totalTime, hchild, Option.map_some, Option.getD_some, hT.stats_eq hc hchild]
  exact (hl.total hroot _).1

end Nodes

/-- **The times of every tree account for each other**, in every well-nested run whose clock
    readings do not decrease along a thread. -/
theorem times_account (pID : pid_t) (ops : List Op) (s : InProc)
    (hops : ∀ op ∈ ops, op.isMeasure ∨ op.isReport) (hn : WellNested ops)
    (hclocks : ClocksAdvance ops) (hs : InProc.run pID ops = .ok s) (tID : pthread_t) (t : TreePtr)
    (tree : PerfTree) (ht : s.mem.treePtr pID tID = some t)
    (htree : s.mem.trees.get t = some tree) :
    ∃ l, (Ledger.run pID ops).thread tID = some l ∧ TimesAccount s.mem tree l
      ((lastReading tID ops).toNat - (firstReading tID ops).toNat) := by
  obtain ⟨n, hn⟩ := hn
  have hS := InProc.run_sim hs
  obtain ⟨r, ct, hA⟩ := hS.rep.present ht
  have hct := hA.spec
  rw [hS.pID, Ledger.world_tree_self] at hct
  obtain ⟨l, hl, rfl⟩ := Option.map_eq_some_iff.mp hct
  obtain ⟨-, htimed⟩ := run_timed hops hn hclocks hs hl
  have hroot : ∀ d, .leave [] d ∉ l.events := fun d hd => Ledger.left_ne_nil hl hd rfl
  obtain ⟨stack, hstack, hspells⟩ := hA.tracks.tree
  obtain rfl := Option.some.inj (htree.symm.trans hstack)
  have hr : ∀ {r' : NodePtr}, (l.callTree.object r stack).rootNode = some r' → r' = r :=
    fun h => (Option.some.inj h).symm
  refine ⟨l, hl, fun r' π node hroot' hnode => ?_, fun r' p node hroot' hp hnode => ?_,
    fun r' p node hroot' hp hnode hpr hclosed => ?_⟩
  · obtain rfl := hr hroot'
    obtain ⟨p, hp, hnode⟩ := Option.bind_eq_some_iff.mp hnode
    rw [hA.tracks.stats_eq hp hnode, (htimed.total hroot π).1, ThreadLog.timeAt_ended]
  · obtain rfl := hr hroot'
    obtain ⟨π, hp⟩ := hp
    obtain ⟨htotal, hle⟩ := htimed.total hroot π
    rw [hA.tracks.stats_eq hp hnode, htotal]
    exact hle
  · obtain rfl := hr hroot'
    obtain ⟨π, hp⟩ := hp
    have hπ : π ≠ [] := by
      rintro rfl
      exact hpr (Option.some.inj hp).symm
    have hnot : ¬ π <:+ l.started.map Prod.fst := by
      rw [ThreadLog.started_names]
      exact fun hs => hclosed (hspells.mem_iff.mpr ⟨π, hs, hp⟩)
    have hks : (node.childNodes.toList.map Prod.fst).Nodup := by
      rw [Std.ExtTreeMap.map_fst_toList_eq_keys]
      exact Std.ExtTreeMap.nodup_keys
    rw [hA.tracks.totalTime_children htimed hroot hp hnode, hA.tracks.stats_eq hp hnode,
      (htimed.total hroot π).1]
    exact Accounts.below_le htimed hks hπ hnot

/-- `g` runs inside `f`, for three of its ten microseconds. -/
def timedCalls : List Op :=
  [.start threadA nameF none { timeStamp := 10 }, .start threadA nameG none { timeStamp := 12 },
    .stop threadA 1 { timeStamp := 15 }, .stop threadA 0 { timeStamp := 20 }]

theorem timedCalls_advance : ClocksAdvance timedCalls :=
  clocksAdvance_of_thread 1 (by simp [timedCalls, Op.reading, threadA]) (by decide)

theorem timedCalls_account : ∃ s t tree l, InProc.run 42 timedCalls = .ok s ∧
    s.mem.treePtr 42 1 = some t ∧ s.mem.trees.get t = some tree ∧ tree.activeNode.length = 1 ∧
    (Ledger.run 42 timedCalls).thread 1 = some l ∧ TimesAccount s.mem tree l 10 := by
  obtain ⟨s, hs, hread⟩ := ok_of_toOption_bind (show (InProc.run 42 timedCalls).toOption.bind
    (fun s => (s.mem.treePtr 42 1).bind fun t => (s.mem.trees.get t).map
      (·.activeNode.length)) = some 1 by decide)
  obtain ⟨t, ht, hread⟩ := Option.bind_eq_some_iff.mp hread
  obtain ⟨tree, htree, hlength⟩ := Option.map_eq_some_iff.mp hread
  obtain ⟨l, hl, haccount⟩ := times_account 42 timedCalls s (by decide) ⟨_, rfl⟩
    timedCalls_advance hs 1 t tree ht htree
  exact ⟨s, t, tree, l, hs, ht, htree, hlength, hl, haccount⟩

end RdkPerf

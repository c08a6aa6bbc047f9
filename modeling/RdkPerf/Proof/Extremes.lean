import RdkPerf.Proof.Intervals

/-!
# The extremes of a node

`IncrementData` keeps four running extremes. The maxima start at zero, below every delta. The
minima start at `INITIAL_MIN_VALUE`, "a large number", which is a thousand seconds: they are the
least delta when one of the deltas is at most that, and `INITIAL_MIN_VALUE` itself when all of
them are longer.
-/

namespace RdkPerf

open Lib

/-- The figures a constructor of a node leaves. -/
inductive Created : TimingStats → Prop where
  | root : Created PerfNode.root.stats
  | record (pRecord : PerfRecord) (n : PerfNode) (h : PerfNode.ofRecord pRecord = .ok n) :
      Created n.stats
  | entry (szName : Name) (n : PerfNode) (h : PerfNode.ofEntry szName = .ok n) : Created n.stats

/-- A call that changes the figures of a node. -/
inductive Recording where
  | increment (deltaTime userCPU systemCPU : UInt64)
  | resetInterval
deriving DecidableEq, Repr

namespace Recording

def call (m : Mem) (this : NodePtr) : Recording → Except Fault Mem
  | .increment deltaTime userCPU systemCPU =>
    PerfNode.incrementData m this deltaTime userCPU systemCPU
  | .resetInterval => pure (PerfNode.resetInterval m this)

def stats (s : TimingStats) : Recording → TimingStats
  | .increment deltaTime userCPU systemCPU => s.increment deltaTime userCPU systemCPU
  | .resetInterval => s.resetInterval

def delta : Recording → Option UInt64
  | .increment deltaTime _ _ => some deltaTime
  | .resetInterval => none

end Recording

/-- The deltas recorded, the first one first. -/
def recorded (calls : List Recording) : List UInt64 := calls.filterMap Recording.delta

/-- The calls after the last reset. -/
def sinceReset (calls : List Recording) : List Recording :=
  calls.rtakeWhile (· ≠ .resetInterval)

/-- Minimum and maximum are what they say, of all deltas and of those since the last reset. -/
structure Extremes (calls : List Recording) (s : TimingStats) : Prop where
  total : recorded calls ≠ [] → IsLeast {d | d ∈ recorded calls} s.nTotalMin ∧
    IsGreatest {d | d ∈ recorded calls} s.nTotalMax
  interval : recorded (sinceReset calls) ≠ [] →
    IsLeast {d | d ∈ recorded (sinceReset calls)} s.nIntervalMin ∧
      IsGreatest {d | d ∈ recorded (sinceReset calls)} s.nIntervalMax

/-- If there are deltas, one of them is not above the value the minima start at. -/
def ReachesStart (ds : List UInt64) : Prop := ds ≠ [] → ∃ d ∈ ds, d ≤ INITIAL_MIN_VALUE

section Figures

variable {calls : List Recording} {c : Recording} {s : TimingStats} {ds : List UInt64}

/-- The extremes, as running extremes. -/
structure Running (calls : List Recording) (s : TimingStats) : Prop where
  totalMin : s.nTotalMin.toNat =
    ((recorded calls).map UInt64.toNat).foldr min INITIAL_MIN_VALUE.toNat
  totalMax : s.nTotalMax.toNat = ((recorded calls).map UInt64.toNat).foldr max 0
  intervalMin : s.nIntervalMin.toNat =
    ((recorded (sinceReset calls)).map UInt64.toNat).foldr min INITIAL_MIN_VALUE.toNat
  intervalMax : s.nIntervalMax.toNat =
    ((recorded (sinceReset calls)).map UInt64.toNat).foldr max 0

theorem Running.created (h : Created s) : Running [] s := by
  cases h with
  | root => exact ⟨rfl, rfl, rfl, rfl⟩
  | record pRecord n hn =>
    rw [PerfNode.eq_named_of_construct hn]
    exact ⟨rfl, rfl, rfl, rfl⟩
  | entry szName n hn =>
    rw [PerfNode.eq_named_of_construct hn]
    exact ⟨rfl, rfl, rfl, rfl⟩

theorem Running.increment (h : Running calls s) (deltaTime userCPU systemCPU : UInt64) :
    Running (calls ++ [.increment deltaTime userCPU systemCPU])
      (s.increment deltaTime userCPU systemCPU) := by
  have hall : recorded (calls ++ [.increment deltaTime userCPU systemCPU]) =
      recorded calls ++ [deltaTime] := by
    rw [recorded, List.filterMap_append]
    rfl
  have hsince : recorded (sinceReset (calls ++ [.increment deltaTime userCPU systemCPU])) =
      recorded (sinceReset calls) ++ [deltaTime] := by
    unfold sinceReset
    rw [List.rtakeWhile_concat_pos _ _ _ (by simp), recorded, List.filterMap_append]
    rfl
  constructor
  · rw [hall, List.map_append, List.map_singleton, foldr_min_concat, ← h.totalMin]
    exact toNat_ite_min _ _
  · rw [hall, List.map_append, List.map_singleton, foldr_max_concat, ← h.totalMax]
    exact toNat_ite_max _ _
  · rw [hsince, List.map_append, List.map_singleton, foldr_min_concat, ← h.intervalMin]
    exact toNat_ite_min _ _
  · rw [hsince, List.map_append, List.map_singleton, foldr_max_concat, ← h.intervalMax]
    exact toNat_ite_max _ _

theorem Running.resetInterval (h : Running calls s) :
    Running (calls ++ [.resetInterval]) s.resetInterval := by
  have hall : recorded (calls ++ [.resetInterval]) = recorded calls := by
    rw [recorded, List.filterMap_append]
    exact List.append_nil _
  have hsince : sinceReset (calls ++ [.resetInterval]) = [] := by
    unfold sinceReset
    rw [List.rtakeWhile_concat_neg _ _ _ (by simp)]
  constructor
  · rw [hall]
    exact h.totalMin
  · rw [hall]
    exact h.totalMax
  · rw [hsince]
    rfl
  · rw [hsince]
    rfl

theorem toNat_mem_iff {d : UInt64} : d ∈ ds ↔ d.toNat ∈ ds.map UInt64.toNat :=
  (List.mem_map_of_injective fun _ _ => UInt64.toNat_inj.mp).symm

theorem isLeast_toNat_iff {d : UInt64} :
    IsLeast {d | d ∈ ds} d ↔ IsLeast {n | n ∈ ds.map UInt64.toNat} d.toNat := by
  refine and_congr toNat_mem_iff ⟨fun h n hn => ?_, fun h d' hd' => ?_⟩
  · obtain ⟨d', hd', rfl⟩ := List.mem_map.mp hn
    exact UInt64.le_iff_toNat_le.mp (h hd')
  · exact UInt64.le_iff_toNat_le.mpr (h (List.mem_map_of_mem hd'))

theorem isGreatest_toNat_iff {d : UInt64} :
    IsGreatest {d | d ∈ ds} d ↔ IsGreatest {n | n ∈ ds.map UInt64.toNat} d.toNat := by
  refine and_congr toNat_mem_iff ⟨fun h n hn => ?_, fun h d' hd' => ?_⟩
  · obtain ⟨d', hd', rfl⟩ := List.mem_map.mp hn
    exact UInt64.le_iff_toNat_le.mp (h hd')
  · exact UInt64.le_iff_toNat_le.mpr (h (List.mem_map_of_mem hd'))

/-- What the start does to a minimum, and does not do to a maximum. -/
theorem extremes_of_running {least greatest : UInt64}
    (hleast : least.toNat = (ds.map UInt64.toNat).foldr min INITIAL_MIN_VALUE.toNat)
    (hgreatest : greatest.toNat = (ds.map UInt64.toNat).foldr max 0) :
    (ds ≠ [] → IsLeast {d | d ∈ ds} least ∧ IsGreatest {d | d ∈ ds} greatest) ↔
      ReachesStart ds := by
  refine forall_congr' fun hne => ?_
  rw [isLeast_toNat_iff, isGreatest_toNat_iff, hleast, hgreatest, isLeast_foldr_min_iff,
    isGreatest_foldr_max_iff]
  have hstart : (∃ n ∈ ds.map UInt64.toNat, n ≤ INITIAL_MIN_VALUE.toNat) ↔
      ∃ d ∈ ds, d ≤ INITIAL_MIN_VALUE := by
    simp only [List.mem_map, exists_exists_and_eq_and, UInt64.le_iff_toNat_le]
  rw [hstart, and_iff_left]
  obtain ⟨d, hd⟩ := List.exists_mem_of_ne_nil ds hne
  exact ⟨d.toNat, List.mem_map_of_mem hd, Nat.zero_le _⟩

theorem Running.figures_exact_iff (h : Running calls s) : Extremes calls s ↔
    ReachesStart (recorded calls) ∧ ReachesStart (recorded (sinceReset calls)) := by
  rw [← extremes_of_running h.totalMin h.totalMax,
    ← extremes_of_running h.intervalMin h.intervalMax]
  exact ⟨fun h => ⟨h.total, h.interval⟩, fun h => ⟨h.1, h.2⟩⟩

theorem Running.call (h : Running calls s) (c : Recording) :
    Running (calls ++ [c]) (c.stats s) := by
  cases c with
  | increment deltaTime userCPU systemCPU => exact h.increment deltaTime userCPU systemCPU
  | resetInterval => exact h.resetInterval

end Figures

variable {m : Mem} {p : NodePtr} {n : PerfNode} {calls : List Recording}

/-- A call on a node that is there. -/
theorem Recording.call_ok (hn : m.nodes.get p = some n) (c : Recording) : ∃ m',
    c.call m p = .ok m' ∧ m'.nodes.get p = some { n with stats := c.stats n.stats } := by
  cases c with
  | increment deltaTime userCPU systemCPU =>
    refine ⟨_, by rw [Recording.call, PerfNode.incrementData, Mem.node_eq_ok.mpr hn]; rfl, ?_⟩
    rw [Mem.modifyNode_nodes, Store.get_modify, if_pos rfl, hn]
    rfl
  | resetInterval =>
    refine ⟨_, rfl, ?_⟩
    rw [PerfNode.resetInterval, Mem.modifyNode_nodes, Store.get_modify, if_pos rfl, hn]
    rfl

/-- The calls run, and the figures of the node are those the calls give it. -/
theorem calls_run (hn : m.nodes.get p = some n) (hc : Created n.stats) : ∃ m' n',
    calls.foldlM (fun m c => Recording.call m p c) m = .ok m' ∧ m'.nodes.get p = some n' ∧
      Running calls n'.stats := by
  induction calls using List.reverseRecOn with
  | nil => exact ⟨m, n, rfl, hn, .created hc⟩
  | append_singleton calls c ih =>
    obtain ⟨m₁, n₁, hrun, hn₁, h₁⟩ := ih
    obtain ⟨m', hcall, hn'⟩ := c.call_ok hn₁
    exact ⟨m', _, foldlM_concat_ok.mpr ⟨m₁, hrun, hcall⟩, hn', h₁.call c⟩

/-- **The extremes of a node are exact** as long as, whenever there are deltas, one of them reaches
    down to where the minima start. -/
theorem extremes_iff (m : Mem) (p : NodePtr) (n : PerfNode) (calls : List Recording)
    (hn : m.nodes.get p = some n) (hc : Created n.stats) : ∃ m' n',
      calls.foldlM (fun m c => Recording.call m p c) m = .ok m' ∧ m'.nodes.get p = some n' ∧
        (Extremes calls n'.stats ↔
          ReachesStart (recorded calls) ∧ ReachesStart (recorded (sinceReset calls))) := by
  obtain ⟨m', n', hrun, hn', h⟩ := calls_run hn hc
  exact ⟨m', n', hrun, hn', h.figures_exact_iff⟩

/-- A memory with one node, which a record has just been given. -/
def oneNode (name : Name) : Mem :=
  { Mem.init with nodes := Mem.init.nodes.alloc (.named name) }

/-- Two calls of 3 and of 2000000000 microseconds. -/
def shortAndLong : List Recording := [.increment 3 0 0, .increment 2000000000 0 0]

theorem shortAndLong_exact : ∃ m' n',
    shortAndLong.foldlM (fun m c => Recording.call m 0 c) (oneNode [102]) = .ok m' ∧
      m'.nodes.get 0 = some n' ∧ Extremes shortAndLong n'.stats := by
  obtain ⟨m', n', hrun, hn', hiff⟩ := extremes_iff (oneNode [102]) 0 (.named [102]) shortAndLong
    rfl (.entry [102] _ rfl)
  exact ⟨m', n', hrun, hn', hiff.mpr ⟨fun _ => ⟨3, by decide, by decide⟩,
    fun _ => ⟨3, by decide, by decide⟩⟩⟩

/-- A call of 2000 seconds is shown with a minimum of 1000. -/
theorem longCall_minimum : ¬ ∀ (m m' : Mem) (p : NodePtr) (n n' : PerfNode)
    (calls : List Recording), m.nodes.get p = some n → Created n.stats →
      calls.foldlM (fun m c => Recording.call m p c) m = .ok m' → m'.nodes.get p = some n' →
        Extremes calls n'.stats := by
  intro h
  let calls : List Recording := [.increment 2000000000 0 0]
  obtain ⟨m', hrun, hread⟩ := ok_of_toOption_bind
    (show (calls.foldlM (fun m c => Recording.call m 0 c) (oneNode [102])).toOption.bind
      (fun m => (m.nodes.get 0).map (·.stats.nTotalMin)) = some 1000000000 by decide)
  obtain ⟨n', hn', hmin⟩ := Option.map_eq_some_iff.mp hread
  have hleast := ((h _ m' 0 (.named [102]) n' calls rfl (.entry [102] _ rfl) hrun hn').total
    (by decide)).1.1
  rw [hmin] at hleast
  exact absurd hleast (by decide)

end RdkPerf

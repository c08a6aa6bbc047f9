import RdkPerf.Proof.Clock
import RdkPerf.Proof.Printing
import RdkPerf.Spec.Nesting

/-!
# The interval a process report shows

A process has one clock. A report takes what has elapsed since the mark and marks again, and so
does every registration of a thread: it marks. What a report hands to its trees is therefore the
time since the last registration, when there was one after the last report, while the counters it
is printed with were reset by that report.

`ProcessRun` is any sequence of calls on one process, with anything that leaves the process alone
in between; its `Moment`s are the calls that read the clock.
-/

namespace RdkPerf

open Lib

variable {m m' : Mem} {pID : pid_t} {tID : pthread_t} {t : TreePtr} {p : NodePtr} {env : Env}

/-! ## What a report hands on -/

/-- The interval in a tree's line. -/
def Printed.interval : Printed → Option UInt32
  | .tree _ _ _ msIntervalTime => some msIntervalTime
  | _ => none

/-- The intervals handed to trees so far. -/
def Mem.intervals (m : Mem) : List UInt32 := m.log.filterMap Printed.interval

theorem Mem.intervals_print (m : Mem) (line : Printed) :
    (m.print line).intervals = m.intervals ++ line.interval.toList := by
  unfold Mem.intervals Mem.print
  rw [List.filterMap_append]
  cases h : line.interval <;> simp [h]

/-- The nodes hand nothing on. -/
theorem PerfNode.reportDataNested_intervals {b : Bool} {fuel : Nat} {nLevel : UInt32}
    (h : PerfNode.reportDataNested b fuel m p nLevel = .ok m') : m'.intervals = m.intervals := by
  refine reportDataNested_inv (I := fun m₁ => m₁.intervals = m.intervals) ?_ ?_ h rfl
  · intro m₁ nLevel stats hI
    rw [Mem.intervals_print, hI]
    cases b with
    | true => exact List.append_nil _
    | false => exact List.append_nil _
  · intro m₁ q hI
    exact hI

/-- A tree prints the interval it is handed, and leaves the process alone. -/
theorem PerfTree.reportData_intervals {msIntervalTime : UInt32}
    (h : PerfTree.reportData m t msIntervalTime = .ok m') :
    m'.intervals = m.intervals ++ [msIntervalTime] ∧ m'.processMap = m.processMap := by
  obtain ⟨tree, -, h⟩ := bind_eq_ok.mp h
  cases hroot : tree.rootNode with
  | none =>
    rw [hroot] at h
    exact absurd h (by simp)
  | some pRoot =>
    rw [hroot] at h
    obtain ⟨m₁, hm₁, hm'⟩ := bind_eq_ok.mp h
    obtain rfl := Except.ok.inj hm'
    refine ⟨?_, ?_⟩
    · show m₁.intervals = _
      exact (PerfNode.reportDataNested_intervals hm₁).trans (Mem.intervals_print _ _)
    · show m₁.processMap = m.processMap
      exact (PerfNode.reportDataNested_processMap hm₁).trans (Mem.print_processMap _ _)

/-- What `ReportData` of a process computes from its clock: 32 bits of the milliseconds. -/
def PerfProcess.msInterval (proc : PerfProcess) (env : Env) : UInt32 :=
  ((proc.clock.now .elapsed env.elapsed).getWallClock .millisecond).toUInt32

/-- **A process report** hands the interval to each of its trees, and marks the clock. -/
theorem PerfProcess.reportData_intervals {proc : PerfProcess}
    (hproc : m.processMap[pID]? = some proc) (hne : proc.mapThreads.isEmpty = false)
    (h : PerfProcess.reportData m pID env = .ok m') :
    m'.intervals = m.intervals ++
        List.replicate proc.mapThreads.toList.length (proc.msInterval env) ∧
      ∃ c : PerfClock, m'.processMap[pID]? = some { proc with clock := c.now .marker env.marker } := by
  rw [PerfProcess.reportData, Mem.process_eq_ok.mpr hproc, ok_bind] at h
  simp only [hne, Bool.false_eq_true, if_false] at h
  let clock := proc.clock.now .elapsed env.elapsed
  have hloop : ∀ (es : List (pthread_t × TreePtr)) (m₁ : Mem),
      es.foldlM (fun m entry => PerfTree.reportData m entry.2 (proc.msInterval env)) m₁ = .ok m' →
      m'.intervals = m₁.intervals ++ List.replicate es.length (proc.msInterval env) ∧
        m'.processMap = m₁.processMap := by
    intro es
    induction es with
    | nil =>
      intro m₁ h₁
      obtain rfl := Except.ok.inj h₁
      exact ⟨(List.append_nil _).symm, rfl⟩
    | cons e es ih =>
      intro m₁ h₁
      obtain ⟨m₂, hm₂, h₂⟩ := foldlM_cons_ok.mp h₁
      obtain ⟨hlines, hmap⟩ := PerfTree.reportData_intervals hm₂
      obtain ⟨hlines', hmap'⟩ := ih m₂ h₂
      refine ⟨?_, hmap'.trans hmap⟩
      rw [hlines', hlines, List.length_cons, List.replicate_succ, List.append_assoc]
      rfl
  obtain ⟨hlines, hmap⟩ := hloop _ _ h
  refine ⟨?_, clock, ?_⟩
  · rw [hlines]
    congr 1
    show ((m.print _).print _).intervals = m.intervals
    rw [Mem.intervals_print, Mem.intervals_print]
    simp [Printed.interval]
  · rw [hmap, Mem.modifyProcess_processMap, Std.ExtTreeMap.getElem?_modify]
    simp only [Mem.print_processMap, hproc]
    rw [if_pos (by simp)]
    rfl

/-! ## What keeps the clock of a process -/

theorem Mem.processMap_modifyProcess (m : Mem) (pID : pid_t) (f : PerfProcess → PerfProcess) :
    (m.modifyProcess pID f).processMap[pID]? = m.processMap[pID]?.map f := by
  rw [Mem.modifyProcess_processMap, Std.ExtTreeMap.getElem?_modify, if_pos (by simp)]

/-- The process is still there with the clock it had, and no thread was registered if none was. -/
def KeepsClock (pID : pid_t) (m m' : Mem) : Prop :=
  ∀ proc, m.processMap[pID]? = some proc → ∃ proc', m'.processMap[pID]? = some proc' ∧
    proc'.clock = proc.clock ∧ (proc.mapThreads.isEmpty = true → proc'.mapThreads.isEmpty = true)

theorem KeepsClock.of_eq (h : m'.processMap[pID]? = m.processMap[pID]?) : KeepsClock pID m m' :=
  fun proc hproc => ⟨proc, h.trans hproc, rfl, id⟩

theorem KeepsClock.trans {m'' : Mem} (h : KeepsClock pID m m') (h' : KeepsClock pID m' m'') :
    KeepsClock pID m m'' := by
  intro proc hproc
  obtain ⟨proc', hproc', hclock, hempty⟩ := h proc hproc
  obtain ⟨proc'', hproc'', hclock', hempty'⟩ := h' proc' hproc'
  exact ⟨proc'', hproc'', hclock'.trans hclock, fun he => hempty' (hempty he)⟩

theorem KeepsClock.erase (m : Mem) (pID : pid_t) (tID : pthread_t) : KeepsClock pID m
    (m.modifyProcess pID fun p => { p with mapThreads := p.mapThreads.erase tID }) := by
  intro proc hproc
  refine ⟨{ proc with mapThreads := proc.mapThreads.erase tID }, ?_, rfl, fun hempty => ?_⟩
  · rw [Mem.processMap_modifyProcess, hproc]
    rfl
  · rw [Std.ExtTreeMap.isEmpty_iff.mp hempty]
    exact Std.ExtTreeMap.isEmpty_iff.mpr Std.ExtTreeMap.erase_empty

theorem KeepsClock.delete (h : PerfTree.delete m t = .ok m') : KeepsClock pID m m' :=
  .of_eq (by rw [(PerfTree.delete_treesOnly h).processMap])

theorem PerfProcess.removeTree_keepsClock {b : Bool}
    (h : PerfProcess.removeTree m pID tID = .ok (m', b)) : KeepsClock pID m m' := by
  obtain ⟨proc, -, h⟩ := bind_eq_ok.mp h
  cases ht : proc.mapThreads[tID]? with
  | none =>
    simp only [ht] at h
    obtain ⟨rfl, -⟩ := Prod.mk.inj (Except.ok.inj h)
    exact .of_eq rfl
  | some pTree =>
    simp only [ht] at h
    obtain ⟨m₁, hm₁, h⟩ := bind_eq_ok.mp h
    obtain ⟨rfl, -⟩ := Prod.mk.inj (Except.ok.inj h)
    exact (KeepsClock.delete hm₁).trans (.erase m₁ pID tID)

theorem PerfProcess.closeInactiveThreads_keepsClock {b : Bool}
    (h : PerfProcess.closeInactiveThreads m pID = .ok (m', b)) : KeepsClock pID m m' := by
  refine closeInactiveThreads_inv (I := fun m₁ => KeepsClock pID m m₁) ?_ ?_ h (.of_eq rfl)
  · intro m₁ m₂ t hdelete hI
    exact hI.trans (.delete hdelete)
  · intro m₁ tID hI
    exact hI.trans (.erase m₁ pID tID)

/-- A registration marks the clock. -/
theorem PerfProcess.newTree_marks {proc : PerfProcess} {pTree : Option TreePtr}
    (hproc : m.processMap[pID]? = some proc)
    (h : PerfProcess.newTree m pID tID env = .ok (m', pTree)) : ∃ proc',
      m'.processMap[pID]? = some proc' ∧ proc'.clock = proc.clock.now .marker env.marker := by
  rw [PerfProcess.newTree, Mem.process_eq_ok.mpr hproc, ok_bind] at h
  cases ht : proc.mapThreads[tID]? with
  | none =>
    simp only [ht] at h
    obtain ⟨rfl, -⟩ := Prod.mk.inj (Except.ok.inj h)
    refine ⟨{ proc with
      mapThreads := proc.mapThreads.insert tID m.trees.next
      clock := proc.clock.now .marker env.marker }, ?_, rfl⟩
    rw [Mem.processMap_modifyProcess, Mem.processMap_modifyProcess, hproc]
    rfl
  | some pTree =>
    simp only [ht] at h
    obtain ⟨_, -, h⟩ := bind_eq_ok.mp h
    obtain ⟨rfl, -⟩ := Prod.mk.inj (Except.ok.inj h)
    refine ⟨{ proc with clock := proc.clock.now .marker env.marker }, ?_, rfl⟩
    rw [Mem.processMap_modifyProcess, hproc]
    rfl

/-! ## Runs of one process -/

/-- A call that reads the clocks for the process: a registration marks, and a report with threads
    to report takes what has elapsed and marks. -/
inductive Moment where
  | registered (mark : Reading)
  | reported (elapsed mark : Reading)
deriving DecidableEq, Repr

namespace Moment

/-- The reading the clock is left with. -/
def mark : Moment → Reading
  | registered mark => mark
  | reported _ mark => mark

def readings : Moment → List Reading
  | registered mark => [mark]
  | reported elapsed mark => [elapsed, mark]

def report : Moment → Option Reading
  | registered _ => none
  | reported _ mark => some mark

def registration : Moment → Option Reading
  | registered mark => some mark
  | reported _ _ => none

end Moment

/-- A process from its insertion on. -/
inductive ProcessRun (pID : pid_t) : List Moment → Mem → Prop where
  | new (m : Mem) (hnew : m.processMap[pID]? = none) :
      ProcessRun pID [] (RDKPerf_InsertProcess m pID)
  | newTree {moments m m' tID env pTree} (h : ProcessRun pID moments m)
      (hrun : PerfProcess.newTree m pID tID env = .ok (m', pTree)) :
      ProcessRun pID (moments ++ [.registered env.marker]) m'
  | removeTree {moments m m' tID b} (h : ProcessRun pID moments m)
      (hrun : PerfProcess.removeTree m pID tID = .ok (m', b)) : ProcessRun pID moments m'
  | closeInactiveThreads {moments m m' b} (h : ProcessRun pID moments m)
      (hrun : PerfProcess.closeInactiveThreads m pID = .ok (m', b)) : ProcessRun pID moments m'
  | reportData {moments m m' env proc} (h : ProcessRun pID moments m)
      (hproc : m.processMap[pID]? = some proc) (hne : proc.mapThreads.isEmpty = false)
      (hrun : PerfProcess.reportData m pID env = .ok m') :
      ProcessRun pID (moments ++ [.reported env.elapsed env.marker]) m'
  | reportNothing {moments m m' env proc} (h : ProcessRun pID moments m)
      (hproc : m.processMap[pID]? = some proc) (hempty : proc.mapThreads.isEmpty = true)
      (hrun : PerfProcess.reportData m pID env = .ok m') : ProcessRun pID moments m'
  /-- Anything else, which leaves the process alone. -/
  | other {moments m m'} (h : ProcessRun pID moments m)
      (hsame : m'.processMap[pID]? = m.processMap[pID]?) : ProcessRun pID moments m'

/-- The moment an interval is to count from: the last report with threads to report, and before
    the first of these the first registration. -/
def countsFrom (moments : List Moment) : Option Reading :=
  (moments.filterMap Moment.report).getLast?.or (moments.filterMap Moment.registration).head?

/-- … and the one it does count from. -/
def lastMark (moments : List Moment) : Option Reading := (moments.map Moment.mark).getLast?

/-- The wall clock does not go back, up to the reading `now`. -/
def NeverBack (moments : List Moment) (now : Reading) : Prop :=
  ((moments.flatMap Moment.readings ++ [now]).map Reading.wallClock).Pairwise (· ≤ ·)

instance (moments : List Moment) (now : Reading) : Decidable (NeverBack moments now) :=
  inferInstanceAs (Decidable (List.Pairwise _ _))

section Runs

variable {moments : List Moment} {proc : PerfProcess}

/-- The clock holds the last mark; before the first there is no thread. -/
structure Marked (moments : List Moment) (proc : PerfProcess) : Prop where
  empty : moments = [] → proc.mapThreads.isEmpty = true
  mark : ∀ r, lastMark moments = some r → proc.clock.wallClock.toNat = r.wallClock % 2 ^ 64

theorem lastMark_concat (moments : List Moment) (moment : Moment) :
    lastMark (moments ++ [moment]) = some moment.mark := by
  rw [lastMark, List.map_append]
  exact List.getLast?_concat

theorem Marked.marker {c : PerfClock} {moment : Moment}
    (hclock : proc.clock = c.now .marker moment.mark) : Marked (moments ++ [moment]) proc := by
  refine ⟨fun h => absurd h (by simp), fun r hr => ?_⟩
  rw [lastMark_concat] at hr
  obtain rfl := Option.some.inj hr
  rw [hclock]
  exact (PerfClock.read c _).1

theorem ProcessRun.marked (h : ProcessRun pID moments m) :
    ∃ proc, m.processMap[pID]? = some proc ∧ Marked moments proc := by
  have hkeeps : ∀ {moments : List Moment} {m m' : Mem}, KeepsClock pID m m' →
      (∃ proc, m.processMap[pID]? = some proc ∧ Marked moments proc) →
      ∃ proc, m'.processMap[pID]? = some proc ∧ Marked moments proc := by
    rintro moments m m' hk ⟨proc, hproc, hM⟩
    obtain ⟨proc', hproc', hclock, hempty⟩ := hk proc hproc
    refine ⟨proc', hproc', fun h => hempty (hM.empty h), fun r hr => ?_⟩
    rw [hclock]
    exact hM.mark r hr
  induction h with
  | new m hnew =>
    refine ⟨{ idProcess := pID }, ?_, fun _ => rfl, fun r hr => absurd hr (by simp [lastMark])⟩
    rw [RDKPerf_InsertProcess, Std.ExtTreeMap.getElem?_insertIfNew, if_pos]
    exact ⟨by simp, by rw [Std.ExtTreeMap.mem_iff_isSome_getElem?, hnew]; simp⟩
  | newTree _ hrun ih =>
    obtain ⟨proc, hproc, -⟩ := ih
    obtain ⟨proc', hproc', hclock⟩ := PerfProcess.newTree_marks hproc hrun
    exact ⟨proc', hproc', .marker hclock⟩
  | removeTree _ hrun ih => exact hkeeps (PerfProcess.removeTree_keepsClock hrun) ih
  | closeInactiveThreads _ hrun ih =>
    exact hkeeps (PerfProcess.closeInactiveThreads_keepsClock hrun) ih
  | reportData _ hproc hne hrun =>
    obtain ⟨-, c, hproc'⟩ := PerfProcess.reportData_intervals hproc hne hrun
    exact ⟨_, hproc', .marker rfl⟩
  | reportNothing _ hproc hempty hrun ih =>
    refine hkeeps (.of_eq ?_) ih
    rw [PerfProcess.reportData, Mem.process_eq_ok.mpr hproc, ok_bind, if_pos hempty] at hrun
    obtain rfl := Except.ok.inj hrun
    rfl
  | other _ hsame ih => exact hkeeps (.of_eq hsame) ih

/-! ## The interval -/

/-- From `m` to `m'` trees were reported, and each was handed this many milliseconds. -/
def HandsOn (m m' : Mem) (ms : Nat) : Prop :=
  ∃ handed, handed ≠ [] ∧ m'.intervals = m.intervals ++ handed ∧ ∀ x ∈ handed, x.toNat = ms

/-- The last mark is as many milliseconds back as the moment the interval is to count from, and
    these fit 32 bits. -/
def Undisturbed (moments : List Moment) (now : Reading) : Prop :=
  ∀ r₀ r, countsFrom moments = some r₀ → lastMark moments = some r →
    (now.wallClock - r.wallClock) / 1000 = (now.wallClock - r₀.wallClock) / 1000 ∧
      (now.wallClock - r₀.wallClock) / 1000 < 2 ^ 32

theorem handsOn_iff {n ms : Nat} {x : UInt32} (hn : n ≠ 0)
    (h : m'.intervals = m.intervals ++ List.replicate n x) : HandsOn m m' ms ↔ x.toNat = ms := by
  constructor
  · rintro ⟨handed, hne, hlines, hall⟩
    rw [h] at hlines
    obtain rfl := List.append_cancel_left hlines
    exact hall x (List.mem_replicate.mpr ⟨hn, rfl⟩)
  · intro hx
    refine ⟨List.replicate n x, by simpa using hn, h, fun y hy => ?_⟩
    rw [(List.mem_replicate.mp hy).2]
    exact hx

/-- What is computed from a marked clock. -/
theorem toNat_msInterval {r : Reading} (hmark : proc.clock.wallClock.toNat = r.wallClock % 2 ^ 64)
    (hle : r.wallClock ≤ env.elapsed.wallClock) : (proc.msInterval env).toNat =
      (env.elapsed.wallClock - r.wallClock) % 2 ^ 64 / 1000 % 2 ^ 32 := by
  have hnow := (PerfClock.read {} env.elapsed).1
  unfold PerfProcess.msInterval PerfClock.getWallClock PerfClock.now
  simp only [PerfClock.getters]
  rw [UInt64.toNat_toUInt32, UInt64.toNat_div, UInt64.toNat_sub, hnow, hmark]
  show _ / 1000 % 2 ^ 32 = _
  omega

/-- A shorter time shows as a longer one when it is as many milliseconds, and 32 bits hold them. -/
theorem ms_eq_iff {short long : Nat} (hle : short ≤ long) :
    short % 2 ^ 64 / 1000 % 2 ^ 32 = long / 1000 ↔
      short / 1000 = long / 1000 ∧ long / 1000 < 2 ^ 32 := by
  have hms : short / 1000 ≤ long / 1000 := Nat.div_le_div_right hle
  constructor
  · intro h
    have hwrap : short % 2 ^ 64 / 1000 ≤ short / 1000 := Nat.div_le_div_right (Nat.mod_le _ _)
    have hcut := Nat.mod_le (short % 2 ^ 64 / 1000) (2 ^ 32)
    have hlt := Nat.mod_lt (short % 2 ^ 64 / 1000) (Nat.two_pow_pos 32)
    rw [h] at hcut hlt
    exact ⟨Nat.le_antisymm hms (hcut.trans hwrap), hlt⟩
  · rintro ⟨heq, hlt⟩
    rw [← heq] at hlt ⊢
    have hfits : short < 2 ^ 64 := by omega
    rw [Nat.mod_eq_of_lt hfits, Nat.mod_eq_of_lt hlt]

/-- The moment to count from is a mark, and no mark is later than the last. -/
theorem countsFrom_le (hne : moments ≠ []) {now : Reading} (hclocks : NeverBack moments now) :
    ∃ r₀ r, countsFrom moments = some r₀ ∧ lastMark moments = some r ∧
      r₀.wallClock ≤ r.wallClock ∧ r.wallClock ≤ now.wallClock := by
  obtain ⟨init, last, rfl⟩ := List.eq_nil_or_concat' moments |>.resolve_left hne
  -- it is some moment's mark
  obtain ⟨r₀, hfrom, moment, hmem, hr₀⟩ : ∃ r₀, countsFrom (init ++ [last]) = some r₀ ∧
      ∃ moment ∈ init ++ [last], r₀ = moment.mark := by
    unfold countsFrom
    cases hlast : ((init ++ [last]).filterMap Moment.report).getLast? with
    | some r₀ =>
      obtain ⟨moment, hmem, hreport⟩ := List.mem_filterMap.mp (List.mem_of_getLast? hlast)
      refine ⟨r₀, rfl, moment, hmem, ?_⟩
      cases moment <;> simp_all [Moment.report, Moment.mark]
    | none =>
      -- without a report they are registrations
      have hnone := List.filterMap_eq_nil_iff.mp (List.getLast?_eq_none_iff.mp hlast)
      have hall : ∀ moment ∈ init ++ [last], moment.registration = some moment.mark := by
        intro moment hmem
        have hreport := hnone moment hmem
        cases moment <;> simp_all [Moment.report, Moment.mark, Moment.registration]
      obtain ⟨moment, rest, hcons⟩ := List.exists_cons_of_ne_nil hne
      rw [hcons] at hall ⊢
      refine ⟨moment.mark, ?_, moment, List.mem_cons_self, rfl⟩
      rw [List.filterMap_cons, hall moment List.mem_cons_self]
      rfl
  refine ⟨r₀, last.mark, hfrom, lastMark_concat init last, ?_, ?_⟩
  · rw [hr₀]
    rcases List.mem_append.mp hmem with hinit | hlast
    · have hall := hclocks
      unfold NeverBack at hall
      rw [List.flatMap_append, List.append_assoc, List.map_append] at hall
      refine (List.pairwise_append.mp hall).2.2 _ (List.mem_map_of_mem ?_) _
        (List.mem_map_of_mem ?_)
      · refine List.mem_flatMap.mpr ⟨moment, hinit, ?_⟩
        cases moment <;> simp [Moment.readings, Moment.mark]
      · refine List.mem_append_left _ (List.mem_flatMap.mpr ⟨last, List.mem_singleton_self _, ?_⟩)
        cases last <;> simp [Moment.readings, Moment.mark]
    · rw [List.mem_singleton.mp hlast]
  · have hall := hclocks
    unfold NeverBack at hall
    rw [List.map_append] at hall
    refine (List.pairwise_append.mp hall).2.2 _ (List.mem_map_of_mem ?_) _ (by simp)
    refine List.mem_flatMap.mpr ⟨last, by simp, ?_⟩
    cases last <;> simp [Moment.readings, Moment.mark]

/-- **The interval of a process report is the time since the previous one** exactly when no
    registration in between shows in it. -/
theorem report_interval_iff (h : ProcessRun pID moments m)
    (hproc : m.processMap[pID]? = some proc) (hne : proc.mapThreads.isEmpty = false)
    (hrun : PerfProcess.reportData m pID env = .ok m')
    (hclocks : NeverBack moments env.elapsed) : ∃ r₀, countsFrom moments = some r₀ ∧
      (HandsOn m m' ((env.elapsed.wallClock - r₀.wallClock) / 1000) ↔
        Undisturbed moments env.elapsed) := by
  obtain ⟨proc', hproc', hM⟩ := h.marked
  obtain rfl := Option.some.inj (hproc.symm.trans hproc')
  have hmoments : moments ≠ [] := by
    intro hnil
    rw [hM.empty hnil] at hne
    exact absurd hne (by simp)
  obtain ⟨r₀, r, hfrom, hlast, hle, hnow⟩ := countsFrom_le hmoments hclocks
  obtain ⟨hlines, -⟩ := PerfProcess.reportData_intervals hproc hne hrun
  have hlength : proc.mapThreads.toList.length ≠ 0 := by
    intro hzero
    have := Std.ExtTreeMap.isEmpty_toList (t := proc.mapThreads)
    rw [hne, List.length_eq_zero_iff.mp hzero] at this
    exact absurd this (by simp)
  refine ⟨r₀, hfrom, ?_⟩
  rw [handsOn_iff hlength hlines, toNat_msInterval (hM.mark r hlast) hnow,
    ms_eq_iff (Nat.sub_le_sub_left hle _)]
  constructor
  · intro heq r₀' r' hfrom' hlast'
    obtain rfl := Option.some.inj (hfrom.symm.trans hfrom')
    obtain rfl := Option.some.inj (hlast.symm.trans hlast')
    exact heq
  · exact fun hund => hund r₀ r hfrom hlast

/-- **Without a registration since the previous report nothing shows in the interval**, nor without a
    second one before the first report. -/
theorem undisturbed_of_quiet {now : Reading}
    (hquiet : (∃ before elapsed mark, moments = before ++ [.reported elapsed mark]) ∨
      ∃ mark, moments = [.registered mark])
    (hfits : ∀ r, lastMark moments = some r → (now.wallClock - r.wallClock) / 1000 < 2 ^ 32) :
    Undisturbed moments now := by
  have hsame : countsFrom moments = lastMark moments := by
    rcases hquiet with ⟨before, elapsed, mark, rfl⟩ | ⟨mark, rfl⟩
    · rw [lastMark_concat, countsFrom, List.filterMap_append]
      show (_ ++ [mark]).getLast?.or _ = _
      rw [List.getLast?_concat]
      rfl
    · rfl
  intro r₀ r hfrom hlast
  obtain rfl := Option.some.inj (hfrom.symm.trans (hsame.trans hlast))
  exact ⟨rfl, hfits r₀ hlast⟩

/-- A record that is made registers its thread, unless it has a tree. -/
theorem ProcessRun.construct (h : ProcessRun pID moments m) {name : Name} {caller : Caller}
    {record : PerfRecord} (hrun : PerfRecord.construct m pID name caller env = .ok (m', record)) :
    ProcessRun pID (if m.treePtr pID caller.tid = none then
      moments ++ [.registered env.marker] else moments) m' := by
  obtain ⟨proc, hproc, -⟩ := h.marked
  have hfind : RDKPerf_FindProcess m pID = some pID := by
    rw [RDKPerf_FindProcess, Std.ExtTreeMap.contains_eq_isSome_getElem?, hproc]
    rfl
  have hptr : m.treePtr pID caller.tid = proc.mapThreads[caller.tid]? :=
    Mem.treePtr_of_process hproc
  simp only [PerfRecord.construct, hfind] at hrun
  obtain ⟨found, hget, hrun⟩ := bind_eq_ok.mp hrun
  rw [PerfProcess.getTree, Mem.process_eq_ok.mpr hproc, ok_bind] at hget
  cases ht : proc.mapThreads[caller.tid]? with
  | some t =>
    simp only [ht] at hget
    obtain rfl := Except.ok.inj hget
    simp only [pure_eq_ok, ok_bind] at hrun
    obtain ⟨⟨m₁, record₁, p⟩, hadd, hrun⟩ := bind_eq_ok.mp hrun
    obtain ⟨rfl, -⟩ := Prod.mk.inj (Except.ok.inj hrun)
    rw [hptr, ht, if_neg (by simp)]
    exact h.other (by rw [(PerfTree.addNodeRecord_treesOnly hadd).processMap])
  | none =>
    simp only [ht] at hget
    obtain ⟨_, -, hget⟩ := bind_eq_ok.mp hget
    obtain rfl := Except.ok.inj hget
    obtain ⟨⟨m₁, pTree⟩, hnew, hrun⟩ := bind_eq_ok.mp hrun
    rw [hptr, ht, if_pos rfl]
    cases pTree with
    | none =>
      obtain ⟨rfl, -⟩ := Prod.mk.inj (Except.ok.inj hrun)
      exact h.newTree hnew
    | some t =>
      obtain ⟨⟨m₂, record₂, p⟩, hadd, hrun⟩ := bind_eq_ok.mp hrun
      obtain ⟨rfl, -⟩ := Prod.mk.inj (Except.ok.inj hrun)
      exact (h.newTree hnew).other (by rw [(PerfTree.addNodeRecord_treesOnly hadd).processMap])

end Runs

/-- The clocks at a moment, in seconds. -/
def atSecond (sec : UInt64) : Env :=
  { elapsed := { tvSec := sec }, marker := { tvSec := sec } }

/-- The process with no call yet. -/
def startedProcess : Mem := RDKPerf_InsertProcess Mem.init 42

theorem startedProcess_run : ProcessRun 42 [] startedProcess :=
  .new Mem.init Std.ExtTreeMap.getElem?_empty

/-- Thread 1 starts a call at 0 seconds, and the process is reported at 100 and at 250. -/
theorem oneThread_reportedTwice : ∃ m m', ProcessRun 42 [.registered { tvSec := 0 },
      .reported { tvSec := 100 } { tvSec := 100 }] m ∧
    PerfProcess.reportData m 42 (atSecond 250) = .ok m' ∧ HandsOn m m' 150000 := by
  obtain ⟨⟨m₁, record⟩, hrun, hread⟩ := ok_of_toOption_bind
    (show (PerfRecord.construct startedProcess 42 nameF.bytes threadA (atSecond 0)).toOption.bind
      (fun x => (x.1.processMap[(42 : pid_t)]?).bind fun proc₁ =>
        (PerfProcess.reportData x.1 42 (atSecond 100)).toOption.bind fun m =>
        (m.processMap[(42 : pid_t)]?).bind fun proc =>
        (PerfProcess.reportData m 42 (atSecond 250)).toOption.map fun _ =>
          (startedProcess.treePtr 42 threadA.tid, proc₁.mapThreads.isEmpty,
            proc.mapThreads.isEmpty)) = some (none, false, false) by decide)
  obtain ⟨proc₁, hproc₁, hread⟩ := Option.bind_eq_some_iff.mp hread
  obtain ⟨m, hm, hread⟩ := Option.bind_eq_some_iff.mp hread
  obtain ⟨proc, hproc, hread⟩ := Option.bind_eq_some_iff.mp hread
  obtain ⟨m', hm', hread⟩ := Option.map_eq_some_iff.mp hread
  simp only [Prod.mk.injEq] at hread
  obtain ⟨hnew, hne₁, hne⟩ := hread
  have h₁ := startedProcess_run.construct hrun
  rw [if_pos hnew] at h₁
  have h := h₁.reportData hproc₁ hne₁ (toOption_eq_some.mp hm)
  obtain ⟨r₀, hfrom, hiff⟩ := report_interval_iff h hproc hne (toOption_eq_some.mp hm') (by decide)
  obtain rfl := Option.some.inj hfrom
  refine ⟨m, m', h, toOption_eq_some.mp hm', hiff.mpr ?_⟩
  refine undisturbed_of_quiet (Or.inl ⟨_, _, _, rfl⟩) fun r hr => ?_
  obtain rfl := Option.some.inj hr
  decide

/-- Thread 2 starts a call at 150 seconds, between the reports at 100 and at 200: both trees are
    handed 50 seconds where 100 have gone by. -/
theorem newThread_halves : ∃ moments m m' r₀, ProcessRun 42 moments m ∧
    NeverBack moments (atSecond 200).elapsed ∧
    PerfProcess.reportData m 42 (atSecond 200) = .ok m' ∧
    countsFrom moments = some r₀ ∧ r₀ = { tvSec := 100 } ∧
    m'.intervals = m.intervals ++ [50000, 50000] ∧
    ¬ HandsOn m m' (((atSecond 200).elapsed.wallClock - r₀.wallClock) / 1000) := by
  obtain ⟨⟨m₁, record₁⟩, h₁, hread⟩ := ok_of_toOption_bind
    (show (PerfRecord.construct startedProcess 42 nameF.bytes threadA (atSecond 0)).toOption.bind
      (fun x => (x.1.processMap[(42 : pid_t)]?).bind fun proc =>
        (PerfProcess.reportData x.1 42 (atSecond 100)).toOption.bind fun m₂ =>
        (PerfRecord.construct m₂ 42 nameF.bytes threadB (atSecond 150)).toOption.bind fun y =>
        (PerfProcess.reportData y.1 42 (atSecond 200)).toOption.map fun m₄ =>
          (startedProcess.treePtr 42 threadA.tid, proc.mapThreads.isEmpty,
            m₂.treePtr 42 threadB.tid, y.1.intervals, m₄.intervals)) =
        some (none, false, none, [100000], [100000, 50000, 50000]) by decide)
  obtain ⟨proc, hproc, hread⟩ := Option.bind_eq_some_iff.mp hread
  obtain ⟨m₂, h₂, hread⟩ := Option.bind_eq_some_iff.mp hread
  obtain ⟨⟨m₃, record₃⟩, h₃, hread⟩ := Option.bind_eq_some_iff.mp hread
  obtain ⟨m₄, h₄, hread⟩ := Option.map_eq_some_iff.mp hread
  simp only [Prod.mk.injEq] at hread
  obtain ⟨hnewA, hne, hnewB, hlines₃, hlines₄⟩ := hread
  have run₁ := startedProcess_run.construct h₁
  rw [if_pos hnewA] at run₁
  have run₂ := run₁.reportData hproc hne (toOption_eq_some.mp h₂)
  have run₃ := run₂.construct (toOption_eq_some.mp h₃)
  rw [if_pos hnewB] at run₃
  refine ⟨_, m₃, m₄, _, run₃, by decide, toOption_eq_some.mp h₄, rfl, rfl, ?_, ?_⟩
  · rw [hlines₃, hlines₄]
    rfl
  · intro h
    obtain ⟨handed, -, hlines, hall⟩ := h
    rw [hlines₃, hlines₄] at hlines
    obtain rfl : [50000, 50000] = handed := (List.append_right_inj [100000]).mp hlines
    exact absurd (hall 50000 List.mem_cons_self) (by decide)

end RdkPerf

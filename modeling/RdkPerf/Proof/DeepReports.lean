import RdkPerf.Proof.Line
import RdkPerf.Proof.ServiceLog

/-!
# Which runs keep to their line buffers

A report indents each line by its level, and from level 1024 on the indent alone leaves the array
the line is built in. The log says at which level a line was printed, so it says whether that
happened (`Mem.LinesFit`), and what a step adds to the log says when: a report of a tree does it if
some path of the tree is that long, and a stop that takes too long if some path below its call is.

A run that goes through and keeps to its buffers is one whose every step finds what it uses and
prints nothing that is too deep (`Service.run_fits_iff`, `InProc.run_fits_iff`).
-/

namespace RdkPerf

open Lib

/-! ## Lines -/

/-- The line was built inside its buffer, whatever text it ends in. -/
def Printed.Fits (line : Printed) : Prop :=
  ∀ l, line.level = some l → ∀ text, LineFits l text

theorem Printed.fits_iff {line : Printed} :
    line.Fits ↔ ∀ l, line.level = some l → 2 * l.toNat < MAX_BUF_SIZE := by
  refine forall₂_congr fun l _ => ?_
  constructor
  · exact fun h => (lineFits_iff l []).mp (h [])
  · exact fun h text => (lineFits_iff l text).mpr h

theorem Printed.fits_seen {line : Printed} : line.seen.Fits ↔ line.Fits := by
  cases line <;> rfl

theorem Printed.fits_ofNode {b : Bool} {nLevel : UInt32} {d : NodeData} :
    (Printed.ofNode b nLevel d).Fits ↔ 2 * nLevel.toNat < MAX_BUF_SIZE := by
  have hlevel : (Printed.ofNode b nLevel d).level = some nLevel := by
    cases b <;> rfl
  rw [Printed.fits_iff]
  constructor
  · exact fun h => h nLevel hlevel
  · intro h l hl
    obtain rfl := Option.some.inj (hlevel.symm.trans hl)
    exact h

/-- **No line of the log has left its buffer.** -/
def Mem.LinesFit (m : Mem) : Prop := ∀ line ∈ m.log, line.Fits

theorem Gained.linesFit_iff {m m' : Mem} {lines : List Printed} (h : Gained m m' lines) :
    m'.LinesFit ↔ m.LinesFit ∧ ∀ line ∈ lines, line.Fits := by
  have hseen : ∀ m : Mem, m.LinesFit ↔ ∀ line ∈ m.log.map Printed.seen, line.Fits := by
    intro m
    rw [List.forall_mem_map]
    exact forall₂_congr fun _ _ => Printed.fits_seen.symm
  rw [hseen, hseen, show m'.log.map Printed.seen = m.log.map Printed.seen ++ lines from h,
    List.forall_mem_append]

theorem Mem.linesFit_of_log {m m' : Mem} {lines : List Printed} (h : m'.log = m.log ++ lines) :
    m'.LinesFit ↔ m.LinesFit ∧ ∀ line ∈ lines, line.Fits := by
  unfold LinesFit
  rw [h, List.forall_mem_append]

/-- **The report of a node** keeps to its buffers exactly where no node below is too deep. -/
theorem PerfNode.reportData_linesFit_iff {m m' : Mem} {p : NodePtr} {nLevel : UInt32} {b : Bool}
    (h : PerfNode.reportData m p nLevel b = .ok m') : m'.LinesFit ↔
      m.LinesFit ∧ ∀ depth, AtDepth m p depth → 2 * (nLevel.toNat + depth) < MAX_BUF_SIZE := by
  obtain ⟨lines, hlog, hfits⟩ := PerfNode.reportDataNested_fits_iff h fun _ => []
  rw [Mem.linesFit_of_log hlog, ← hfits]
  refine and_congr_right fun _ => forall₂_congr fun line _ => ?_
  rw [Printed.fits_iff]
  exact forall₂_congr fun l _ => (lineFits_iff l []).symm

/-- **The report of a tree**, likewise. -/
theorem PerfTree.reportData_linesFit_iff {m m' : Mem} {t : TreePtr} {ms : UInt32} {tree : PerfTree}
    (htree : m.trees.get t = some tree) (h : PerfTree.reportData m t ms = .ok m') :
    m'.LinesFit ↔ m.LinesFit ∧ ∀ pRoot, tree.rootNode = some pRoot →
      ∀ depth, AtDepth m pRoot depth → 2 * depth < MAX_BUF_SIZE := by
  rw [PerfTree.reportData, Mem.tree_eq_ok.mpr htree, ok_bind] at h
  cases hroot : tree.rootNode with
  | none =>
    rw [hroot] at h
    exact absurd h (by simp)
  | some pRoot =>
    rw [hroot] at h
    obtain ⟨m₁, hm₁, hm'⟩ := bind_eq_ok.mp h
    obtain rfl := Except.ok.inj hm'
    have hline : (Printed.tree t tree.idThread.toUInt32 tree.shownName ms).Fits := by
      intro l hl
      cases hl
    have hfirst : (m.print (.tree t tree.idThread.toUInt32 tree.shownName ms)).LinesFit ↔
        m.LinesFit := by
      rw [Mem.linesFit_of_log rfl]
      exact and_iff_left (by simpa using hline)
    show m₁.LinesFit ↔ _
    rw [PerfNode.reportData_linesFit_iff hm₁, hfirst]
    refine and_congr_right fun _ => ?_
    simp only [Option.some.injEq, forall_eq', UInt32.toNat_zero, Nat.zero_add]
    rfl

/-! ## Trees -/

namespace CallTree

variable {ct : CallTree} {b : Bool} {π : Path} {lines : List Printed}

/-- What is at `π` and below it is not so deep that a line of its report could leave the buffer. -/
def ShallowAt (ct : CallTree) (π : Path) : Prop :=
  ∀ τ, ct.node (τ ++ π) ≠ none → 2 * τ.length < MAX_BUF_SIZE

/-- Above a node there are nodes. -/
def Rooted (ct : CallTree) : Prop := ∀ name π, ct.node (name :: π) ≠ none → ct.node π ≠ none

theorem Rooted.drop (h : ct.Rooted) (n : Nat) (hπ : ct.node π ≠ none) :
    ct.node (π.drop n) ≠ none := by
  induction n generalizing π with
  | zero => exact hπ
  | succ n ih =>
    cases π with
    | nil => exact hπ
    | cons name π => exact ih (h name π hπ)

theorem Shown.mem_iff {line : Printed} (h : ct.Shown b π lines) : line ∈ lines ↔
    ∃ τ d, ct.node (τ ++ π) = some d ∧ Printed.ofNode b (UInt32.ofNat τ.length) d = line := by
  obtain ⟨paths, hpaths, rfl⟩ := h
  rw [List.mem_filterMap]
  constructor
  · rintro ⟨τ, -, hτ⟩
    obtain ⟨d, hd, hline⟩ := Option.map_eq_some_iff.mp hτ
    exact ⟨τ, d, hd, hline⟩
  · rintro ⟨τ, d, hd, hline⟩
    exact ⟨τ, (hpaths.mem τ).mpr (by rw [hd]; simp), by rw [hd, Option.map_some, hline]⟩

/-- **The lines of a report fit** exactly when what it shows is shallow. -/
theorem Shown.fits_iff (hrooted : ct.Rooted) (h : ct.Shown b π lines) :
    (∀ line ∈ lines, line.Fits) ↔ ct.ShallowAt π := by
  constructor
  · intro hfits τ hτ
    by_contra hdeep
    -- the first level that is too deep is met before the 32 bits of the level wrap
    let σ := τ.drop (τ.length - MAX_BUF_SIZE / 2)
    have hσ : ct.node (σ ++ π) ≠ none := by
      have hdrop := hrooted.drop (τ.length - MAX_BUF_SIZE / 2) hτ
      rwa [List.drop_append_of_le_length (Nat.sub_le _ _)] at hdrop
    have hlength : σ.length = MAX_BUF_SIZE / 2 := by
      rw [List.length_drop]
      unfold MAX_BUF_SIZE at *
      omega
    obtain ⟨d, hd⟩ := Option.ne_none_iff_exists'.mp hσ
    have hfit := Printed.fits_ofNode.mp (hfits _ (h.mem_iff.mpr ⟨σ, d, hd, rfl⟩))
    rw [hlength] at hfit
    exact absurd hfit (by decide)
  · intro hshallow line hline
    obtain ⟨τ, d, hd, rfl⟩ := h.mem_iff.mp hline
    have hroom := hshallow τ (by rw [hd]; simp)
    rw [Printed.fits_ofNode, UInt32.toNat_ofNat']
    exact Nat.lt_of_le_of_lt (Nat.mul_le_mul_left 2 (Nat.mod_le _ _)) hroom

theorem Reported.fits_iff (hrooted : ct.Rooted) {ms : UInt32} (h : ct.Reported ms lines) :
    (∀ line ∈ lines, line.Fits) ↔ ct.ShallowAt [] := by
  obtain ⟨below, hbelow, rfl⟩ := h
  rw [List.forall_mem_cons, hbelow.fits_iff hrooted]
  refine and_iff_right ?_
  rintro l hl
  cases hl

end CallTree

/-- The trees of the code have no node without the nodes above it. -/
theorem Tracks.rooted {m : Mem} {t : TreePtr} {r : NodePtr} {ct : CallTree}
    (hT : Tracks m t r ct) : ct.Rooted := by
  intro name π hπ
  obtain ⟨q, hq⟩ : ∃ q, walk (childOf m) r (name :: π) = some q :=
    Option.ne_none_iff_exists'.mp fun hnone => hπ (hT.absent hnone)
  obtain ⟨p, hp, -⟩ := walk_cons_eq_some.mp hq
  obtain ⟨n, -, -, -, hn⟩ := hT.live hp
  rw [hn]
  simp

theorem Rep.rooted {m : Mem} {w : World} (h : Rep m w) {pID : pid_t} {tID : pthread_t}
    {ct : CallTree} (hct : w.tree pID tID = some ct) : ct.Rooted := by
  obtain ⟨t, r, hA⟩ := h.at_of_tree hct
  exact hA.tracks.rooted

/-! ## Reports -/

namespace World

variable {w : World} {pID : pid_t} {tID : pthread_t} {mark mark' : LastMark} {env : Env}
  {lines : List Printed}

theorem ThreadReport.fits_iff (hrooted : ∀ ct, w.tree pID tID = some ct → ct.Rooted)
    (h : w.ThreadReport pID tID lines) :
    (∀ line ∈ lines, line.Fits) ↔ ∀ ct, w.tree pID tID = some ct → ct.ShallowAt [] := by
  cases hct : w.tree pID tID with
  | none =>
    rw [h.2 hct]
    simp
  | some ct =>
    rw [(h.1 ct hct).fits_iff (hrooted ct hct)]
    simp

theorem ProcessReported.fits_iff {markR elapsed : Reading} {tIDs : List pthread_t}
    (hrooted : ∀ tID ct, w.tree pID tID = some ct → ct.Rooted)
    (h : w.ProcessReported pID markR elapsed tIDs lines) :
    (∀ line ∈ lines, line.Fits) ↔ ∀ tID ct, w.tree pID tID = some ct → ct.ShallowAt [] := by
  obtain ⟨-, hmem, blocks, hblocks, rfl⟩ := h
  have hplain : ∀ {line : Printed}, line.level = none → line.Fits := by
    intro line hnone l hl
    rw [hnone] at hl
    cases hl
  have hhead : ∀ {line : Printed} {rest : List Printed}, line.level = none →
      ((∀ line' ∈ line :: rest, line'.Fits) ↔ ∀ line' ∈ rest, line'.Fits) := by
    intro line rest hnone
    rw [List.forall_mem_cons]
    exact and_iff_right (hplain hnone)
  have hall : (∀ line ∈ blocks.flatten, line.Fits) ↔
      ∀ tID ∈ tIDs, ∀ ct, w.tree pID tID = some ct → ct.ShallowAt [] := by
    clear hmem
    induction hblocks with
    | nil => simp
    | cons hblock _ ih =>
      obtain ⟨ct, hct, hreported⟩ := hblock
      rw [List.flatten_cons, List.forall_mem_append, List.forall_mem_cons, ih,
        hreported.fits_iff (hrooted _ ct hct), hct]
      simp
  have hthreads : (∀ tID ∈ tIDs, ∀ ct, w.tree pID tID = some ct → ct.ShallowAt []) ↔
      ∀ tID ct, w.tree pID tID = some ct → ct.ShallowAt [] := by
    refine forall_congr' fun tID => ⟨fun h ct hct => ?_, fun h _ => h⟩
    exact h ((hmem tID).mpr (by rw [hct]; simp)) ct hct
  rw [hhead rfl, ← hthreads, ← hall]
  split
  · next hnil =>
    rw [hnil] at hblocks
    cases hblocks
    rfl
  · exact hhead rfl

theorem Report.fits_iff (hrooted : ∀ tID ct, w.tree pID tID = some ct → ct.Rooted)
    (hreg : ∀ tID, w.registered pID = false → w.tree pID tID = none)
    (h : w.Report mark pID env lines mark') : (∀ line ∈ lines, line.Fits) ↔
      ∀ tID ct, w.tree pID tID = some ct → ct.inactive = false → ct.ShallowAt [] := by
  unfold Report at h
  split at h
  · obtain ⟨tIDs, hlines, -⟩ := h
    have hleft : ∀ tID ct, (w.closeInactive pID).tree pID tID = some ct ↔
        w.tree pID tID = some ct ∧ ct.inactive = false := by
      intro tID ct
      simp only [closeInactive, sweep_tree, if_true, Option.bind_eq_some_iff]
      constructor
      · rintro ⟨ct', hct', hkept⟩
        split at hkept
        · cases hkept
        · next hactive =>
          obtain rfl := Option.some.inj hkept
          exact ⟨hct', Bool.eq_false_iff.mpr hactive⟩
      · rintro ⟨hct, hactive⟩
        exact ⟨ct, hct, if_neg (by simp [hactive])⟩
    rw [hlines.fits_iff fun tID ct hct => hrooted tID ct ((hleft tID ct).mp hct).1]
    refine forall₂_congr fun tID ct => ?_
    rw [hleft, and_imp]
  · next hun =>
    rw [h.1]
    refine iff_of_true (by simp) fun tID ct hct => ?_
    rw [hreg tID (Bool.eq_false_iff.mpr hun)] at hct
    cases hct

end World

/-! ## The service -/

/-- The trees that a message has reported are not too deep for it. -/
def PerfMessage.Shallow (tree : pid_t → pthread_t → Option CallTree) (msg : PerfMessage) : Prop :=
  match MessageType.ofCode msg.type with
  | some .eReportThread =>
    ∀ ct, tree msg.report_thread.pID msg.report_thread.tID = some ct → ct.ShallowAt []
  | some .eReportProcess =>
    ∀ tID ct, tree msg.report_process.pID tID = some ct → ct.inactive = false → ct.ShallowAt []
  | _ => True

namespace Service

variable {ds : List Delivery} {d : Delivery} {s s' : State}

theorem messagePrints_fits_iff {m : Mem} {w : World} (h : Rep m w) {mark mark' : LastMark}
    {msg : PerfMessage} {env : Env} {lines : List Printed}
    (hlines : w.MessagePrints mark msg env lines mark') :
    (∀ line ∈ lines, line.Fits) ↔ msg.Shallow w.tree := by
  unfold World.MessagePrints at hlines
  unfold PerfMessage.Shallow
  cases htype : MessageType.ofCode msg.type with
  | none =>
    rw [htype] at hlines
    simp [hlines.1]
  | some type =>
    rw [htype] at hlines
    cases type with
    | eReportThread => exact hlines.1.fits_iff fun _ hct => h.rooted hct
    | eReportProcess =>
      exact World.Report.fits_iff (fun _ _ hct => h.rooted hct)
        (fun _ hun => h.tree_none_of_unregistered hun) hlines
    | eEntry | eThreshold | eExit | eCloseThread | eCloseProcess | eNoMessage | eExitQueue
    | eMaxType => simp [hlines.1]

/-- **One message** keeps to the buffers exactly when what it reports is shallow. -/
theorem step_linesFit_iff (hs : run ds = .ok s) (hstep : step s d = .ok s') :
    s'.mem.LinesFit ↔ s.mem.LinesFit ∧ d.msg.Shallow s.mem.view := by
  obtain ⟨w, mark, hrep, hclock, -⟩ := run_logs hs
  obtain ⟨⟨m, b⟩, hhandle, hstep⟩ := bind_eq_ok.mp hstep
  obtain rfl := Except.ok.inj hstep
  obtain ⟨lines, mark', hprints, hgained, -⟩ := handleMessage_prints hrep hclock hhandle
  have hview : s.mem.view = w.tree := funext fun p => funext fun t => hrep.view p t
  rw [hview, ← messagePrints_fits_iff hrep hprints]
  exact hgained.linesFit_iff

theorem run_linesFit_iff (hs : run ds = .ok s) : s.mem.LinesFit ↔
    ∀ pre d post, ds = pre ++ d :: post → ∀ s₀, run pre = .ok s₀ → d.msg.Shallow s₀.mem.view := by
  induction ds using List.reverseRecOn generalizing s with
  | nil =>
    obtain rfl := Except.ok.inj hs
    exact iff_of_true (fun line hline => absurd hline List.not_mem_nil) forall_places_nil
  | append_singleton ds d ih =>
    obtain ⟨s₁, hs₁, hstep⟩ := foldlM_concat_ok.mp hs
    rw [step_linesFit_iff hs₁ hstep, forall_places_concat, ih hs₁]
    refine and_congr_right fun _ => ⟨fun h s₀ hs₀ => ?_, fun h => h s₁ hs₁⟩
    obtain rfl := Except.ok.inj (hs₁.symm.trans hs₀)
    exact h

/-- **The service survives a run inside its buffers** exactly when it can use the strings of each
    message where it meets it, and each report it is asked for is shallow there. -/
theorem run_fits_iff : (∃ s, run ds = .ok s ∧ s.mem.LinesFit) ↔
    ∀ pre d post, ds = pre ++ d :: post → ∀ s, run pre = .ok s →
      d.msg.Legal s.mem.view ∧ d.msg.Shallow s.mem.view := by
  constructor
  · rintro ⟨s, hs, hfit⟩ pre d post hsplit s₀ hs₀
    exact ⟨run_ok_iff.mp ⟨s, hs⟩ pre d post hsplit s₀ hs₀,
      (run_linesFit_iff hs).mp hfit pre d post hsplit s₀ hs₀⟩
  · intro h
    obtain ⟨s, hs⟩ := run_ok_iff.mpr fun pre d post hsplit s hs => (h pre d post hsplit s hs).1
    exact ⟨s, hs, (run_linesFit_iff hs).mpr fun pre d post hsplit s hs =>
      (h pre d post hsplit s hs).2⟩

end Service

/-! ## The in-process build -/

/-- What a call that comes after `pre` prints is not too deep for it: what is below a call whose stop
    takes too long, the tree a report names, the trees that are left of the process. -/
def Op.Shallow (pID : pid_t) (pre : List Op) : Op → Prop
  | .stop _ h env => Exceeds pre h env →
    ∀ tID l calls, (Ledger.run pID pre).thread tID = some l →
      Frames.trail h l.frames = some calls → l.callTree.ShallowAt (pathOf calls)
  | .reportThread _ tID =>
    ∀ l, (Ledger.run pID pre).thread tID = some l → l.callTree.ShallowAt []
  | .reportProcess _ p _ => p = pID →
    ∀ tID l, (Ledger.run pID pre).thread tID = some l → l.callTree.inactive = false →
      l.callTree.ShallowAt []
  | .start _ _ _ _ => True
  | .setThreshold _ _ _ => True
  | .closeThread _ _ => True
  | .closeProcess _ _ => True

/-! ### How deep a trace can be -/

/-- No path is longer than the thread has entered calls. -/
structure ThreadLog.Short (l : ThreadLog) : Prop where
  active : l.active.length ≤ entries l.events
  entered : ∀ π, .enter π ∈ l.events → π.length ≤ entries l.events

theorem Ledger.short {pID : pid_t} {ops : List Op} {tID : pthread_t} {l : ThreadLog}
    (hl : (Ledger.run pID ops).thread tID = some l) : l.Short := by
  refine run_logs pID ?_ ?_ ?_ ?_ hl
  · exact fun tID n => ⟨Nat.le_refl _, fun π hπ => absurd hπ List.not_mem_nil⟩
  · intro l name hPerf ts h
    refine ⟨Nat.succ_le_succ h.active, fun π hπ => ?_⟩
    rcases List.mem_cons.mp hπ with hπ | hπ
    · rw [Event.enter.inj hπ]
      exact Nat.succ_le_succ h.active
    · exact Nat.le_succ_of_le (h.entered π hπ)
  · intro l hPerf ts h
    cases ht : Frames.trail hPerf l.frames with
    | none => rwa [ThreadLog.stop_of_none ht]
    | some calls =>
      have hevents : (l.stop hPerf ts).events = _ := ThreadLog.stop_events ht
      constructor
      · rw [hevents, ThreadLog.active, ThreadLog.stop_frames]
        exact (l.release_suffix ht).length_le.trans h.active
      · intro π hπ
        rw [hevents] at hπ ⊢
        rcases List.mem_cons.mp hπ with hπ | hπ
        · cases hπ
        · exact h.entered π hπ
  · intro l h
    refine ⟨h.active, fun π hπ => ?_⟩
    rcases List.mem_cons.mp hπ with hπ | hπ
    · cases hπ
    · exact h.entered π hπ

theorem ThreadLog.Short.shallowAt {l : ThreadLog} (h : l.Short)
    (hfew : 2 * entries l.events < MAX_BUF_SIZE) (π : Path) : l.callTree.ShallowAt π := by
  intro τ hτ
  rw [ThreadLog.callTree_node] at hτ
  have hlength : (τ ++ π).length ≤ entries l.events := by
    split at hτ
    · next hentered =>
      rcases hentered with hnil | hentered
      · rw [hnil]
        exact Nat.zero_le _
      · exact h.entered _ hentered
    · exact absurd rfl hτ
  rw [List.length_append] at hlength
  omega

/-- **After fewer than 1024 starts nothing is too deep.** -/
theorem Op.shallow_of_few {pID : pid_t} {pre : List Op}
    (hfew : 2 * pre.countP Op.isStart < MAX_BUF_SIZE) (op : Op) : op.Shallow pID pre := by
  have hshallow : ∀ {tID l}, (Ledger.run pID pre).thread tID = some l →
      ∀ π, l.callTree.ShallowAt π := by
    intro tID l hl
    have hle := Ledger.entries_le hl
    exact (Ledger.short hl).shallowAt (by omega)
  cases op with
  | stop caller hPerf env => exact fun _ tID l calls hl _ => hshallow hl _
  | reportThread caller tID => exact fun l hl => hshallow hl _
  | reportProcess caller p env => exact fun _ tID l hl _ => hshallow hl _
  | start _ _ _ _ | setThreshold _ _ _ | closeThread _ _ | closeProcess _ _ => trivial

theorem Op.shallow_of_short {pID : pid_t} {ops pre post : List Op} (op : Op)
    (hsplit : ops = pre ++ op :: post) (hshort : 2 * ops.length ≤ MAX_BUF_SIZE) :
    op.Shallow pID pre := by
  apply op.shallow_of_few
  have hstarts := pre.countP_le_length (p := Op.isStart)
  rw [hsplit, List.length_append, List.length_cons] at hshort
  omega

/-! ### Its lines -/

namespace CallTree

variable {ct : CallTree} {π τ : Path} {deltaTime : UInt64}

/-- A stop makes no node. -/
theorem stop_node_iff : (ct.stop π deltaTime).node τ ≠ none ↔ ct.node τ ≠ none := by
  rw [CallTree.stop, close_node]
  show (if τ = π then (ct.node τ).map _ else ct.node τ) ≠ none ↔ _
  split
  · exact Option.map_eq_none_iff.not
  · rfl

theorem Rooted.stop (h : ct.Rooted) : (ct.stop π deltaTime).Rooted := by
  intro name τ hτ
  exact stop_node_iff.mpr (h name τ (stop_node_iff.mp hτ))

theorem shallowAt_stop : (ct.stop π deltaTime).ShallowAt τ ↔ ct.ShallowAt τ :=
  forall_congr' fun _ => imp_congr_left stop_node_iff

end CallTree

namespace InProc

variable {pID : pid_t} {pre ops : List Op} {s s' : InProc} {mark mark' : LastMark}
  {lines : List Printed} {op : Op}

theorem prints_fits_iff (hs : InProc.run pID pre = .ok s) (hop : Legal (Ledger.run pID pre) op)
    (h : Prints pID pre mark op lines mark') :
    (∀ line ∈ lines, line.Fits) ↔ op.Shallow pID pre := by
  have hS := InProc.run_sim hs
  have hrep := hS.rep
  rw [hS.pID] at hrep
  have htree : ∀ {tID ct}, ((Ledger.run pID pre).world pID).tree pID tID = some ct ↔
      ∃ l, (Ledger.run pID pre).thread tID = some l ∧ l.callTree = ct := by
    intro tID ct
    rw [Ledger.world_tree_self, Option.map_eq_some_iff]
  cases op with
  | stop caller hPerf env =>
    obtain ⟨tID, calls, l, hl, ht⟩ := hop
    by_cases hex : Exceeds pre hPerf env
    · obtain ⟨tID', l', calls', d, below, hl', ht', -, hbelow, rfl⟩ := h.1 hex
      obtain ⟨rfl, rfl⟩ := hS.openCall_unique ⟨l, hl, ht⟩ ⟨l', hl', ht'⟩
      obtain rfl := Option.some.inj (hl.symm.trans hl')
      rw [ThreadLog.callTree_stop ht] at hbelow
      have hfits := hbelow.fits_iff (hrep.rooted (htree.mpr ⟨l, hl, rfl⟩)).stop
      rw [CallTree.shallowAt_stop] at hfits
      rw [List.forall_mem_cons, hfits]
      have hplain : (Printed.threshold (Path.label (pathOf calls))
          ((thresholdOf pre hPerf).elim (-1) UInt32.toInt32) (env.timeStamp - startOf calls)
            d.stats).Fits := by
        intro level hlevel
        cases hlevel
      rw [and_iff_right hplain]
      constructor
      · intro hshallow _ tID₁ l₁ calls₁ hl₁ ht₁
        obtain ⟨rfl, rfl⟩ := hS.openCall_unique ⟨l, hl, ht⟩ ⟨l₁, hl₁, ht₁⟩
        obtain rfl := Option.some.inj (hl.symm.trans hl₁)
        exact hshallow
      · exact fun hshallow => hshallow hex tID l calls hl ht
    · rw [h.2.1 hex]
      exact iff_of_true (by simp) fun hyes => absurd hyes hex
  | reportThread caller tID =>
    rw [h.1.fits_iff fun ct hct => hrep.rooted hct]
    constructor
    · exact fun hshallow l hl => hshallow _ (htree.mpr ⟨l, hl, rfl⟩)
    · intro hshallow ct hct
      obtain ⟨l, hl, rfl⟩ := htree.mp hct
      exact hshallow l hl
  | reportProcess caller p env =>
    rw [World.Report.fits_iff (fun _ _ hct => hrep.rooted hct)
      (fun _ hun => hrep.tree_none_of_unregistered hun) h]
    constructor
    · rintro hshallow rfl tID l hl
      exact hshallow tID _ (htree.mpr ⟨l, hl, rfl⟩)
    · intro hshallow tID ct hct
      have hp : p = pID := by
        by_contra hne
        rw [show ((Ledger.run pID pre).world pID).tree p tID = none from if_neg hne] at hct
        cases hct
      subst hp
      obtain ⟨l, hl, rfl⟩ := htree.mp hct
      exact hshallow rfl tID l hl
  | start caller szName nThresholdInUS env => exact iff_of_true (by simp [h.1]) trivial
  | setThreshold caller hPerf nThresholdInUS => exact iff_of_true (by simp [h.1]) trivial
  | closeThread caller tID => exact iff_of_true (by simp [h.1]) trivial
  | closeProcess caller p => exact iff_of_true (by simp [h.1]) trivial

/-- **One call** keeps to the buffers exactly when what it prints is shallow. -/
theorem step_linesFit_iff (hs : InProc.run pID pre = .ok s) (hstep : s.step op = .ok s') :
    s'.mem.LinesFit ↔ s.mem.LinesFit ∧ op.Shallow pID pre := by
  obtain ⟨mark, hclock, -⟩ := run_logs hs
  obtain ⟨lines, mark', hprints, hgained, -⟩ := step_prints hs hclock hstep
  rw [← prints_fits_iff hs ((run_sim hs).step_legal hstep) hprints]
  exact hgained.linesFit_iff

theorem run_linesFit_iff (hs : InProc.run pID ops = .ok s) : s.mem.LinesFit ↔
    ∀ pre op post, ops = pre ++ op :: post → op.Shallow pID pre := by
  induction ops using List.reverseRecOn generalizing s with
  | nil =>
    obtain rfl := Except.ok.inj hs
    exact iff_of_true (fun line hline => absurd hline List.not_mem_nil) forall_places_nil
  | append_singleton ops op ih =>
    obtain ⟨s₁, hs₁, hstep⟩ := foldlM_concat_ok.mp hs
    rw [step_linesFit_iff hs₁ hstep, forall_places_concat, ih hs₁]

/-- **The in-process build comes through a run inside its buffers** exactly when each call has what
    it uses and prints nothing too deep. -/
theorem run_fits_iff : (∃ s, InProc.run pID ops = .ok s ∧ s.mem.LinesFit) ↔
    ∀ pre op post, ops = pre ++ op :: post →
      Legal (Ledger.run pID pre) op ∧ op.Shallow pID pre := by
  constructor
  · rintro ⟨s, hs, hfit⟩ pre op post hsplit
    exact ⟨run_ok_iff.mp ⟨s, hs⟩ pre op post hsplit,
      (run_linesFit_iff hs).mp hfit pre op post hsplit⟩
  · intro h
    obtain ⟨s, hs⟩ := run_ok_iff.mpr fun pre op post hsplit => (h pre op post hsplit).1
    exact ⟨s, hs, (run_linesFit_iff hs).mpr fun pre op post hsplit => (h pre op post hsplit).2⟩

end InProc
end RdkPerf

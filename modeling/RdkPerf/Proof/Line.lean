import RdkPerf.Model.Line
import RdkPerf.Proof.InProcSim
import RdkPerf.Proof.Printing

/-!
# How deep a tree may be before its report leaves the line buffer

Each level takes two bytes of the buffer and the terminator one more, so the array is left at the
level where twice the level is its size. Up to there the size the last `snprintf` is given is what
is left behind the indent.
-/

namespace RdkPerf

open Lib

namespace LineBuffer

variable {line : LineBuffer} {nLevel : UInt32} {k : Nat}

/-- After `k` rounds: where the pointer is, and what was written. -/
theorem rounds_writes (k : Nat) : (indentOnce^[k] {}).ptr = 2 * k ∧
    (indentOnce^[k] {}).writes = (List.range k).map fun i => ⟨2 * i, 3⟩ := by
  induction k with
  | zero => exact ⟨rfl, rfl⟩
  | succ k ih =>
    rw [Function.iterate_succ_apply']
    generalize indentOnce^[k] {} = line at ih
    obtain ⟨hptr, hwrites⟩ := ih
    refine ⟨?_, ?_⟩
    · show line.ptr + 2 = 2 * (k + 1)
      rw [hptr]
      rfl
    · show line.writes ++ [⟨line.ptr, 3⟩] = _
      rw [List.range_succ, List.map_append, hwrites, hptr]
      rfl

/-- While there is room for them the dashes stand in the array, terminated. -/
theorem rounds_buffer (h : 2 * k < MAX_BUF_SIZE) :
    (indentOnce^[k] {}).buffer.HasCStr 0 (List.replicate (2 * k) 45) := by
  induction k with
  | zero => exact ⟨rfl, Buf.byteAt_zero _⟩
  | succ k ih =>
    obtain ⟨hptr, -⟩ := rounds_writes k
    have hS := ih (by omega)
    rw [Function.iterate_succ_apply']
    generalize indentOnce^[k] {} = line at hptr hS
    show (line.buffer.write line.ptr ([45, 45] ++ [0])).HasCStr 0 _
    have hroom : line.ptr + ([45, 45] : List UInt8).length + 1 ≤ MAX_BUF_SIZE := by
      rw [hptr]
      exact h
    have htwo := Buf.HasCStr.write_terminated line.buffer hroom
    have hold := hS.1
    rw [List.length_replicate] at hold
    refine ⟨?_, ?_⟩
    · rw [List.length_replicate, Nat.mul_succ, Buf.slice_add, List.replicate_add,
        Buf.slice_write_of_disjoint _ (Or.inl (by omega)), hold, Nat.zero_add, ← hptr]
      congr 1
      exact htwo.1
    · have hnul := htwo.2
      rw [hptr] at hnul ⊢
      rw [List.length_replicate, Nat.zero_add]
      exact hnul

theorem strlen_indent (h : 2 * nLevel.toNat < MAX_BUF_SIZE) :
    (indent nLevel).strlen = some (2 * nLevel.toNat) := by
  have hS := (rounds_buffer h).cstr_eq (by simp) (by rw [List.length_replicate]; omega)
  unfold strlen indent
  rw [hS, Option.map_some, List.length_replicate]

end LineBuffer

namespace PerfNode

variable {nLevel : UInt32} {text : List UInt8}

theorem reportBuffer_of_size {size : UInt64} (h : (LineBuffer.indent nLevel).restSize = some size) :
    reportBuffer nLevel text = (LineBuffer.indent nLevel).snprintf size.toNat text := by
  rw [reportBuffer, h, Option.elim_some]

/-- The last `snprintf` comes after the indent's. -/
theorem mem_reportBuffer {w : Span} (h : w ∈ (LineBuffer.indent nLevel).writes) :
    w ∈ (reportBuffer nLevel text).writes := by
  cases hsize : (LineBuffer.indent nLevel).restSize with
  | none =>
    rw [reportBuffer, hsize, Option.elim_none]
    exact h
  | some size =>
    rw [reportBuffer_of_size hsize]
    exact List.mem_append_left _ h

end PerfNode

/-- Every byte written to the array is one of its bytes, and the size the last `snprintf` is given
    did not wrap and is no more than what is left behind the indent. -/
structure LineFits (nLevel : UInt32) (text : List UInt8) : Prop where
  writes : ∀ w ∈ (PerfNode.reportBuffer nLevel text).writes, w.Within 0 MAX_BUF_SIZE
  size : ∃ length size, (LineBuffer.indent nLevel).strlen = some length ∧
    (LineBuffer.indent nLevel).restSize = some size ∧ size.toNat + length = MAX_BUF_SIZE ∧
    (LineBuffer.indent nLevel).ptr + size.toNat ≤ MAX_BUF_SIZE

/-- **A line fits** exactly when its indent and a terminator do. -/
theorem lineFits_iff (nLevel : UInt32) (text : List UInt8) :
    LineFits nLevel text ↔ 2 * nLevel.toNat < MAX_BUF_SIZE := by
  obtain ⟨hptr, hwrites⟩ := LineBuffer.rounds_writes nLevel.toNat
  have hrounds : LineBuffer.indentOnce^[nLevel.toNat] {} = LineBuffer.indent nLevel := rfl
  rw [hrounds] at hptr hwrites
  constructor
  · intro h
    by_contra hfull
    -- the last round of the loop put its terminator there
    obtain ⟨level, hlevel⟩ : ∃ level, nLevel.toNat = level + 1 :=
      Nat.exists_eq_add_one.mpr (by unfold MAX_BUF_SIZE at hfull; omega)
    have hlast : (⟨2 * level, 3⟩ : Span) ∈ (LineBuffer.indent nLevel).writes := by
      rw [hwrites, hlevel]
      exact List.mem_map.mpr ⟨level, List.mem_range.mpr (Nat.lt_succ_self _), rfl⟩
    have hin := h.writes _ (PerfNode.mem_reportBuffer hlast) (2 * level + 2) ⟨by simp, by simp⟩
    omega
  · intro hroom
    have hlen := LineBuffer.strlen_indent hroom
    have hrest : (LineBuffer.indent nLevel).restSize =
        some (UInt64.ofNat MAX_BUF_SIZE - UInt64.ofNat (2 * nLevel.toNat)) := by
      rw [LineBuffer.restSize, hlen, Option.map_some]
    have hsize : (UInt64.ofNat MAX_BUF_SIZE - UInt64.ofNat (2 * nLevel.toNat)).toNat =
        MAX_BUF_SIZE - 2 * nLevel.toNat := by
      unfold MAX_BUF_SIZE at *
      rw [UInt64.toNat_sub, UInt64.toNat_ofNat', UInt64.toNat_ofNat']
      omega
    refine ⟨?_, _, _, hlen, hrest, by omega, by omega⟩
    intro w hw
    rw [PerfNode.reportBuffer_of_size hrest] at hw
    rcases List.mem_append.mp hw with hw | hw
    · rw [hwrites] at hw
      obtain ⟨i, hi, rfl⟩ := List.mem_map.mp hw
      have hi := List.mem_range.mp hi
      exact Span.within_of_le (Nat.zero_le _) (by simp only; omega)
    · obtain rfl := List.mem_singleton.mp hw
      refine Span.within_of_le (Nat.zero_le _) ?_
      have hle := length_printed_le (MAX_BUF_SIZE - 2 * nLevel.toNat) text
      simp only [hsize, hptr]
      omega

/-! ## The levels of a report -/

section Levels

variable {m m' : Mem} {p q : NodePtr} {nLevel : UInt32} {b : Bool} {fuel : Nat}

/-- A report moves no child. -/
theorem PerfNode.reportDataNested_childOf
    (h : PerfNode.reportDataNested b fuel m p nLevel = .ok m') : childOf m' = childOf m := by
  refine reportDataNested_inv (I := fun m₁ => childOf m₁ = childOf m) ?_ ?_ h rfl
  · intro m₁ nLevel stats hI
    exact hI
  · intro m₁ q hI
    rw [← hI]
    exact childOf_modifyNode (f := fun n => { n with stats := n.stats.resetInterval }) fun _ => rfl

/-- The levels of the lines that take `m` to `m'`. -/
def Levels (m m' : Mem) (S : UInt32 → Prop) : Prop :=
  ∃ lines, m'.log = m.log ++ lines ∧ ∀ l, (∃ line ∈ lines, line.level = some l) ↔ S l

theorem Levels.trans {m'' : Mem} {S T : UInt32 → Prop} (h : Levels m m' S)
    (h' : Levels m' m'' T) : Levels m m'' fun l => S l ∨ T l := by
  obtain ⟨lines, hlog, hlines⟩ := h
  obtain ⟨lines', hlog', hlines'⟩ := h'
  refine ⟨lines ++ lines', by rw [hlog', hlog, List.append_assoc], fun l => ?_⟩
  show _ ↔ S l ∨ T l
  rw [← hlines, ← hlines']
  simp only [List.mem_append, or_and_right, exists_or]

theorem Levels.congr {S T : UInt32 → Prop} (h : Levels m m' S) (hST : ∀ l, S l ↔ T l) :
    Levels m m' T := by
  obtain ⟨lines, hlog, hlines⟩ := h
  exact ⟨lines, hlog, fun l => (hlines l).trans (hST l)⟩

/-- A node is below `p` by so many labels. -/
def AtDepth (m : Mem) (p : NodePtr) (depth : Nat) : Prop :=
  ∃ π q, walk (childOf m) p π = some q ∧ π.length = depth

theorem atDepth_zero : AtDepth m p 0 := ⟨[], p, rfl, rfl⟩

theorem atDepth_succ {depth : Nat} :
    AtDepth m p (depth + 1) ↔ ∃ k c, childOf m p k = some c ∧ AtDepth m c depth := by
  constructor
  · rintro ⟨π, q, hπ, hlen⟩
    rcases List.eq_nil_or_concat' π with rfl | ⟨σ, k, rfl⟩
    · exact absurd hlen (by simp)
    · obtain ⟨c, hc, hq⟩ := walk_concat_eq_some.mp hπ
      exact ⟨k, c, hc, σ, q, hq, by simpa using hlen⟩
  · rintro ⟨k, c, hc, σ, q, hq, hlen⟩
    exact ⟨σ ++ [k], q, walk_concat_eq_some.mpr ⟨c, hc, hq⟩, by simp [hlen]⟩

/-- Above a node there are nodes at every lesser depth. -/
theorem AtDepth.above {depth lesser : Nat} (h : AtDepth m p depth) (hle : lesser ≤ depth) :
    AtDepth m p lesser := by
  obtain ⟨π, q, hπ, rfl⟩ := h
  induction π generalizing q with
  | nil =>
    obtain rfl : lesser = 0 := Nat.le_zero.mp hle
    exact atDepth_zero
  | cons k π ih =>
    obtain ⟨u, hu, -⟩ := walk_cons_eq_some.mp hπ
    rcases Nat.lt_or_eq_of_le hle with hlt | rfl
    · exact ih u hu (Nat.le_of_lt_succ hlt)
    · exact ⟨k :: π, q, hπ, rfl⟩

/-- **A report prints at each level it reaches**, and the level is where it started and the depth,
    in 32 bits. -/
theorem PerfNode.reportDataNested_levels
    (h : PerfNode.reportDataNested b fuel m p nLevel = .ok m') :
    Levels m m' fun l => ∃ depth, AtDepth m p depth ∧ l = nLevel + UInt32.ofNat depth := by
  induction fuel generalizing m m' p nLevel with
  | zero => exact absurd h (by simp [PerfNode.reportDataNested])
  | succ fuel ih =>
    obtain ⟨n, hn, h⟩ := bind_eq_ok.mp h
    obtain ⟨m₁, hm₁, h⟩ := bind_eq_ok.mp h
    let m₀ := m.print (if b then .delta nLevel n.stats.elementName n.stats.nLastDelta
      else .totals nLevel n.stats)
    have hself : Levels m m₀ (· = nLevel) := by
      refine ⟨_, rfl, fun l => ?_⟩
      cases b <;> simp [Printed.level, eq_comm]
    have hloop : ∀ (es : List (Name × NodePtr)) (m₂ : Mem), childOf m₂ = childOf m →
        es.foldlM (fun m e => PerfNode.reportDataNested b fuel m e.2 (nLevel + 1)) m₂ = .ok m₁ →
        Levels m₂ m₁ fun l => ∃ e ∈ es, ∃ depth, AtDepth m e.2 depth ∧
          l = nLevel + 1 + UInt32.ofNat depth := by
      intro es
      induction es with
      | nil =>
        intro m₂ _ h₂
        obtain rfl := Except.ok.inj h₂
        exact ⟨[], (List.append_nil _).symm, by simp⟩
      | cons e es ihes =>
        intro m₂ hm₂ h₂
        obtain ⟨m₃, hm₃, h₃⟩ := foldlM_cons_ok.mp h₂
        have hfirst := ih hm₃
        have hrest := ihes m₃ ((PerfNode.reportDataNested_childOf hm₃).trans hm₂) h₃
        unfold AtDepth at hfirst
        rw [hm₂] at hfirst
        refine (hfirst.trans hrest).congr fun l => ?_
        rw [List.exists_mem_cons_iff]
        rfl
    have hlines := hself.trans (hloop _ m₀ rfl hm₁)
    have hend : m'.log = m₁.log := by
      obtain rfl := Except.ok.inj h
      cases b <;> rfl
    obtain ⟨lines, hlog, hall⟩ := hlines
    refine Levels.congr ⟨lines, hend.trans hlog, hall⟩ fun l => ?_
    have hchild : ∀ e : Name × NodePtr, e ∈ n.childNodes.toList ↔ childOf m p e.1 = some e.2 := by
      intro e
      unfold childOf
      rw [Mem.node_eq_ok.mp hn]
      exact mem_entries
    constructor
    · rintro (rfl | ⟨e, he, depth, hdepth, rfl⟩)
      · exact ⟨0, atDepth_zero, by simp⟩
      · refine ⟨depth + 1, atDepth_succ.mpr ⟨e.1, e.2, (hchild e).mp he, hdepth⟩, ?_⟩
        rw [UInt32.ofNat_add, UInt32.add_assoc, UInt32.add_comm 1]
        rfl
    · rintro ⟨depth, hdepth, rfl⟩
      cases depth with
      | zero => exact Or.inl (by simp)
      | succ depth =>
        obtain ⟨k, c, hc, hdepth⟩ := atDepth_succ.mp hdepth
        refine Or.inr ⟨(k, c), (hchild (k, c)).mpr hc, depth, hdepth, ?_⟩
        rw [UInt32.ofNat_add, UInt32.add_assoc, UInt32.add_comm 1]
        rfl

/-- Whatever text the lines end in, they fit if no level is too deep. -/
theorem PerfNode.reportDataNested_fits_iff
    (h : PerfNode.reportDataNested b fuel m p nLevel = .ok m') (format : Printed → List UInt8) :
    ∃ lines, m'.log = m.log ++ lines ∧
      ((∀ line ∈ lines, ∀ l, line.level = some l → LineFits l (format line)) ↔
        ∀ depth, AtDepth m p depth → 2 * (nLevel.toNat + depth) < MAX_BUF_SIZE) := by
  obtain ⟨lines, hlog, hlevels⟩ := PerfNode.reportDataNested_levels h
  refine ⟨lines, hlog, ?_⟩
  constructor
  · intro hfits depth hdepth
    by_contra hfull
    have hline : ∀ lesser, lesser ≤ depth →
        2 * (nLevel + UInt32.ofNat lesser).toNat < MAX_BUF_SIZE := by
      intro lesser hle
      obtain ⟨line, hmem, hlevel⟩ := (hlevels _).mpr ⟨lesser, hdepth.above hle, rfl⟩
      exact (lineFits_iff _ (format line)).mp (hfits line hmem _ hlevel)
    -- the first level that is too deep is met before the 32 bits wrap
    have hfirst := hline 0 (Nat.zero_le _)
    have hlast := hline (MAX_BUF_SIZE / 2 - nLevel.toNat) (by unfold MAX_BUF_SIZE at *; omega)
    have hword := nLevel.toNat_lt
    unfold MAX_BUF_SIZE at *
    rw [UInt32.toNat_add, UInt32.toNat_ofNat'] at hfirst hlast
    omega
  · intro hdeep line hmem l hlevel
    obtain ⟨depth, hdepth, rfl⟩ := (hlevels l).mp ⟨line, hmem, hlevel⟩
    have hroom := hdeep depth hdepth
    rw [lineFits_iff]
    unfold MAX_BUF_SIZE at *
    rw [UInt32.toNat_add, UInt32.toNat_ofNat']
    omega

/-- **The lines of a report stay in their buffers** exactly when no node is so deep that its
    level, doubled, is the size of the buffer. -/
theorem report_fits_iff (ht : Tidy (childOf m) p)
    (hlive : ∀ q, Reaches (childOf m) p q → m.nodes.get q ≠ none) (nLevel : UInt32) (b : Bool)
    (format : Printed → List UInt8) :
    ∃ m' lines, PerfNode.reportData m p nLevel b = .ok m' ∧ m'.log = m.log ++ lines ∧
      ((∀ line ∈ lines, ∀ l, line.level = some l → LineFits l (format line)) ↔
        ∀ depth, AtDepth m p depth → 2 * (nLevel.toNat + depth) < MAX_BUF_SIZE) := by
  have hbound : ∀ π q, walk (childOf m) p π = some q → π.length < m.nodes.next + 1 := by
    intro π q hq
    refine Nat.lt_succ_of_lt (ht.length_lt (fun u hu => ?_) hq)
    obtain ⟨n, hn⟩ := Option.ne_none_iff_exists'.mp (hlive u hu)
    exact Store.lt_next hn
  obtain ⟨m', hm', -⟩ := sweep (visits_reportData b) nLevel ht hlive hbound
  obtain ⟨lines, hlog, hfits⟩ := PerfNode.reportDataNested_fits_iff hm' format
  exact ⟨m', lines, hm', hlog, hfits⟩

end Levels

/-! ## Calls nested in calls -/

/-- `n` starts on one thread, none of them stopped yet. -/
def nestedStarts (n : Nat) : List Op := List.replicate n (.start threadA nameF none {})

theorem nestedStarts_succ (n : Nat) :
    nestedStarts (n + 1) = nestedStarts n ++ [.start threadA nameF none {}] :=
  List.replicate_succ'

theorem nestedStarts_run (n : Nat) : ∃ s, InProc.run 42 (nestedStarts n) = .ok s := by
  induction n with
  | zero => exact ⟨_, rfl⟩
  | succ n ih =>
    obtain ⟨s, hs⟩ := ih
    have hlegal : Legal (Ledger.run 42 (nestedStarts n)) (.start threadA nameF none {}) :=
      show nameF.bytes ≠ [] by decide
    obtain ⟨s', hs', -⟩ := (InProc.run_sim hs).step_ok hlegal
    rw [nestedStarts_succ]
    exact ⟨s', foldlM_concat_ok.mpr ⟨s, hs, hs'⟩⟩

/-- The log of the thread that makes them. -/
def nestedLog (n : Nat) : ThreadLog :=
  ((Ledger.run 42 (nestedStarts n)).thread threadA.tid).getD
    (.init threadA.tid threadA.threadName.bytes)

theorem nestedStarts_thread (n : Nat) :
    (Ledger.run 42 (nestedStarts (n + 1))).thread threadA.tid = some (nestedLog (n + 1)) ∧
      nestedLog (n + 1) =
        (nestedLog n).enter nameF.bytes (Ledger.run 42 (nestedStarts n)).next 0 := by
  have hthread : (Ledger.run 42 (nestedStarts (n + 1))).thread threadA.tid = some
      ((nestedLog n).enter nameF.bytes (Ledger.run 42 (nestedStarts n)).next 0) := by
    rw [nestedStarts_succ, Ledger.run_concat]
    simp only [Ledger.step, Ledger.setThread_thread, if_true]
    rfl
  have hlog : nestedLog (n + 1) =
      (nestedLog n).enter nameF.bytes (Ledger.run 42 (nestedStarts n)).next 0 := by
    rw [nestedLog, hthread, Option.getD_some]
  exact ⟨by rw [hthread, hlog], hlog⟩

/-- Each start is one level deeper. -/
theorem nestedLog_depth (n : Nat) :
    (nestedLog n).active.length = n ∧ ∀ π, .enter π ∈ (nestedLog n).events → π.length ≤ n := by
  induction n with
  | zero => exact ⟨rfl, fun π hπ => absurd hπ (List.not_mem_nil)⟩
  | succ n ih =>
    obtain ⟨hactive, hevents⟩ := ih
    rw [(nestedStarts_thread n).2]
    refine ⟨congrArg (· + 1) hactive, fun π hπ => ?_⟩
    rcases List.mem_cons.mp hπ with hπ | hπ
    · rw [Event.enter.inj hπ, List.length_cons, hactive]
    · exact Nat.le_succ_of_le (hevents π hπ)

/-- The tree they make is as deep as there are starts. -/
theorem nestedStarts_tree (n : Nat) : ∃ s t r,
    InProc.run 42 (nestedStarts (n + 1)) = .ok s ∧ s.mem.treePtr 42 threadA.tid = some t ∧
      Tracks s.mem t r (nestedLog (n + 1)).callTree ∧
      ∀ depth, AtDepth s.mem r depth ↔ depth ≤ n + 1 := by
  obtain ⟨s, hs⟩ := nestedStarts_run (n + 1)
  have hS := InProc.run_sim hs
  obtain ⟨hactive, hevents⟩ := nestedLog_depth (n + 1)
  have htree : ((Ledger.run 42 (nestedStarts (n + 1))).world s.pID).tree 42 threadA.tid =
      some (nestedLog (n + 1)).callTree := by
    rw [hS.pID, Ledger.world_tree_self, (nestedStarts_thread n).1]
    rfl
  obtain ⟨t, r, hA⟩ := hS.rep.at_of_tree htree
  refine ⟨s, t, r, hs, hA.ptr, hA.tracks, fun depth => ?_⟩
  constructor
  · rintro ⟨π, q, hq, rfl⟩
    obtain ⟨_, -, -, -, hnode⟩ := hA.tracks.live hq
    rw [ThreadLog.callTree_node] at hnode
    split at hnode
    · next h =>
      rcases h with rfl | h
      · exact Nat.zero_le _
      · exact hevents π h
    · exact absurd hnode (by simp)
  · intro hle
    obtain ⟨pTop, -, -, htop⟩ := hA.tracks.top
    exact AtDepth.above ⟨_, pTop, htop, hactive⟩ hle

/-- What both formats begin with: `| %s`. -/
def bar : Printed → List UInt8
  | .totals _ stats => [124, 32] ++ stats.elementName
  | .delta _ elementName _ => [124, 32] ++ elementName
  | _ => []

/-- 1023 calls nested in each other are reported inside the buffers. -/
theorem deepest_fits : ∃ s t r m' lines,
    InProc.run 42 (nestedStarts 1023) = .ok s ∧ s.mem.treePtr 42 threadA.tid = some t ∧
    (s.mem.trees.get t).bind PerfTree.rootNode = some r ∧
    PerfNode.reportData s.mem r 0 false = .ok m' ∧ m'.log = s.mem.log ++ lines ∧
    ∀ line ∈ lines, ∀ l, line.level = some l → LineFits l (bar line) := by
  obtain ⟨s, t, r, hs, ht, hT, hdepth⟩ := nestedStarts_tree 1022
  obtain ⟨m', lines, hm', hlog, hiff⟩ :=
    report_fits_iff hT.tidy (fun _ => hT.reached_live) 0 false bar
  obtain ⟨_, htree, -⟩ := hT.tree
  refine ⟨s, t, r, m', lines, hs, ht, by rw [htree]; rfl, hm', hlog, hiff.mpr fun depth hd => ?_⟩
  have hle := (hdepth depth).mp hd
  unfold MAX_BUF_SIZE
  rw [UInt32.toNat_zero]
  omega

/-- One more, and the terminator of the last indent is written behind the array. -/
theorem deeper_overruns : ∃ s t r m' lines,
    InProc.run 42 (nestedStarts 1024) = .ok s ∧ s.mem.treePtr 42 threadA.tid = some t ∧
    (s.mem.trees.get t).bind PerfTree.rootNode = some r ∧
    PerfNode.reportData s.mem r 0 false = .ok m' ∧ m'.log = s.mem.log ++ lines ∧
    ∃ line ∈ lines, ∃ l, line.level = some l ∧ ∀ text,
      (∃ w ∈ (PerfNode.reportBuffer l text).writes, w.Covers MAX_BUF_SIZE) ∧ ¬ LineFits l text := by
  obtain ⟨s, t, r, hs, ht, hT, hdepth⟩ := nestedStarts_tree 1023
  obtain ⟨m', hm', -⟩ := hT.reportData_node .refl 0 false
  obtain ⟨lines, hlog, hlevels⟩ := PerfNode.reportDataNested_levels hm'
  obtain ⟨_, htree, -⟩ := hT.tree
  obtain ⟨line, hmem, hlevel⟩ := (hlevels _).mpr ⟨1024, (hdepth 1024).mpr (Nat.le_refl _), rfl⟩
  refine ⟨s, t, r, m', lines, hs, ht, by rw [htree]; rfl, hm', hlog, line, hmem, _, hlevel,
    fun text => ⟨⟨⟨2046, 3⟩, PerfNode.mem_reportBuffer ?_, by decide, by decide⟩, ?_⟩⟩
  · obtain ⟨-, hwrites⟩ := LineBuffer.rounds_writes 1024
    show _ ∈ (LineBuffer.indentOnce^[1024] {}).writes
    rw [hwrites]
    exact List.mem_map.mpr ⟨1023, List.mem_range.mpr (by decide), rfl⟩
  · rw [lineFits_iff]
    decide

end RdkPerf

import RdkPerf.Proof.DeepReports

/-!
# The tree is the call trie of the trace

`CallTrie` says it about the objects: which paths have a node, that no two paths share one, what
the counters of a node are as numbers, and what is on the stack. The log of the thread is where
the trace comes in.
-/

namespace RdkPerf

open Lib

/-- The nodes below `r` and the stack are the trie of a log. -/
structure CallTrie (m : Mem) (r : NodePtr) (stack : List NodePtr) (l : ThreadLog) : Prop where
  /-- A node for each path entered, and no other … -/
  entered : ∀ π, (∃ p, walk (childOf m) r π = some p) ↔ π = [] ∨ .enter π ∈ l.events
  /-- … and never one for two of them. -/
  once : ∀ {π π' p}, walk (childOf m) r π = some p → walk (childOf m) r π' = some p → π = π'
  figures : ∀ {π p}, π ≠ [] → walk (childOf m) r π = some p → ∃ n, m.nodes.get p = some n ∧
    n.elementName = Path.label π ∧
    n.stats.nTotalCount.toNat = (elapsedAt π l.events).length ∧
    n.stats.nTotalTime.toNat = ((elapsedAt π l.events).map (·.toNat)).sum % 2 ^ 64 ∧
    n.stats.nTotalMax = (elapsedAt π l.events).foldr max 0
  /-- The stack runs from the node of the innermost open call to the root. -/
  spells : Spells (childOf m) r (pathOf (Frames.items l.frames)) stack

/-- The tree of a log that is short enough for the counters is its trie. -/
theorem Tracks.callTrie {m : Mem} {t : TreePtr} {r : NodePtr} {l : ThreadLog}
    (hT : Tracks m t r l.callTree) (hcount : leaves l.events < 2 ^ 64) :
    ∃ tr, m.trees.get t = some tr ∧ tr.rootNode = some r ∧ CallTrie m r tr.activeNode l := by
  obtain ⟨stack, htree, hspells⟩ := hT.tree
  refine ⟨_, htree, rfl, ⟨fun π => ?_, fun hp hp' => hT.tidy _ _ _ hp hp', fun {π p} hπ hp => ?_,
    hspells⟩⟩
  · constructor
    · rintro ⟨p, hp⟩
      obtain ⟨n, -, -, -, hnode⟩ := hT.live hp
      rw [ThreadLog.callTree_node] at hnode
      exact Classical.byContradiction fun hn => absurd hnode (by rw [if_neg hn]; simp)
    · intro hent
      refine Option.ne_none_iff_exists'.mp fun hnone => ?_
      have hnode := hT.absent hnone
      rw [ThreadLog.callTree_node, if_pos hent] at hnode
      exact absurd hnode (by simp)
  · obtain ⟨n, hn, hname, -, hnode⟩ := hT.live hp
    rw [ThreadLog.callTree_node] at hnode
    split at hnode
    · have hdata : statsAt π l.events = n.stats :=
        congrArg NodeData.stats (Option.some.inj hnode)
      obtain ⟨hc, ht, hm⟩ := statsAt_totals l.events hπ
      rw [hdata] at hc ht hm
      refine ⟨n, hn, hname, ?_, ?_, hm⟩
      · have hle := length_elapsedAt_le π l.events
        rw [hc, UInt64.toNat_ofNat', Nat.mod_eq_of_lt (by omega)]
      · rw [ht, toNat_sum]
    · exact absurd hnode (by simp)

/-- Other threads' calls leave the log of a thread alone. -/
theorem Nests.step_other {pID : pid_t} {s : InProc} {L : Ledger} {n n' : Nesting} {op : Op}
    {tID : pthread_t} (hS : Sim pID s L) (hN : Nests n L) (hop : op.isMeasure)
    (hn : n.step op = some n') (hne : op.caller.tid ≠ tID) :
    (L.step pID op).thread tID = L.thread tID := by
  cases op with
  | start caller szName nThresholdInUS env =>
    simp only [Ledger.step, Ledger.setThread_thread]
    exact if_neg (Ne.symm hne)
  | stop caller h env =>
    obtain ⟨rest, hh, -⟩ := Nesting.step_stop hn
    obtain ⟨l, f, fs, hl, hfs, htrail, -⟩ := hN.stop_top hh
    rw [hS.stop_thread caller env ⟨l, hl, htrail⟩]
    exact if_neg (Ne.symm hne)
  | setThreshold caller h nThresholdInUS => exact absurd hop (by simp [Op.isMeasure])
  | reportProcess caller p env => exact absurd hop (by simp [Op.isMeasure])
  | reportThread caller tID => exact absurd hop (by simp [Op.isMeasure])
  | closeThread caller tID => exact absurd hop (by simp [Op.isMeasure])
  | closeProcess caller p => exact absurd hop (by simp [Op.isMeasure])

/-- What a run leaves in memory for one thread: nothing when it has no log, and else the trie of
    its log. The open calls of the log are the thread's open records. -/
def TreeOf (m : Mem) (pID : pid_t) (tID : pthread_t) (handles : List Handle) :
    Option ThreadLog → Prop
  | none => m.treePtr pID tID = none ∧ handles = []
  | some l => ∃ t tr r, m.treePtr pID tID = some t ∧ m.trees.get t = some tr ∧
      tr.rootNode = some r ∧ CallTrie m r tr.activeNode l ∧
      l.frames.map (·.handle) = handles.map some

/-- In a run of nested calls and reports each thread has the trie of its log. -/
theorem run_treeOf {pID : pid_t} {ops : List Op} {n : Nesting} {s : InProc}
    (hops : ∀ op ∈ ops, op.isMeasure ∨ op.isReport) (hn : Nesting.run ops = some n)
    (hs : InProc.run pID ops = .ok s) (hbound : ops.countP Op.isStart < 2 ^ 64) (tID : pthread_t) :
    TreeOf s.mem pID tID (n.handles tID) ((Ledger.run pID ops).thread tID) := by
  have hS := InProc.run_sim hs
  have htree := Ledger.world_tree_self (Ledger.run pID ops) s.pID tID
  have hframes := (run_nests hops hn hs).handles tID
  cases hl : (Ledger.run pID ops).thread tID with
  | none =>
    rw [hl] at htree
    rw [Ledger.frames, hl] at hframes
    refine ⟨?_, List.map_eq_nil_iff.mp hframes.symm⟩
    rw [← hS.pID]
    exact hS.rep.treePtr_none_iff.mpr htree
  | some l =>
    rw [hl] at htree
    rw [Ledger.frames_of_some hl] at hframes
    obtain ⟨t, r, hA⟩ := hS.rep.at_of_tree htree
    have hle := Ledger.entries_le hl
    have hcounted : l.Counted := Ledger.counted hl
    unfold ThreadLog.Counted at hcounted
    obtain ⟨tr, htr, hroot, htrie⟩ := hA.tracks.callTrie (by omega)
    exact ⟨t, tr, r, hS.pID ▸ hA.ptr, htr, hroot, htrie, hframes⟩

/-- The tree of a thread is as it was after a call of another. -/
theorem run_view_other {pID : pid_t} {ops : List Op} {n n' : Nesting} {s s' : InProc} {op : Op}
    {tID : pthread_t} (hops : ∀ op ∈ ops, op.isMeasure ∨ op.isReport)
    (hn : Nesting.run ops = some n) (hs : InProc.run pID ops = .ok s) (hop : op.isMeasure)
    (hne : op.caller.tid ≠ tID) (hstep : n.step op = some n') (hs' : s.step op = .ok s') :
    s'.mem.view pID tID = s.mem.view pID tID := by
  have hS := InProc.run_sim hs
  have hS' := hS.step_sim hs'
  have hpID : s'.pID = s.pID := hS'.pID.trans hS.pID.symm
  rw [← hS.pID, hS.rep.view, ← hpID, hS'.rep.view, hpID, Ledger.world_tree_self,
    Ledger.world_tree_self, (run_nests hops hn hs).step_other hS hop hstep hne]

/-- **In-process, the tree of a thread is the call trie of its trace**, and the calls of another
    thread change nothing in it, exactly when every call has a name and no report is too deep for
    the buffer of its lines. -/
theorem callTrie_iff (pID : pid_t) (ops : List Op) (n : Nesting)
    (hops : ∀ op ∈ ops, op.isMeasure ∨ op.isReport) (hreg : ReportsRegistered ops)
    (hn : Nesting.run ops = some n) (hbound : ops.countP Op.isStart < 2 ^ 64) :
    (∃ s, InProc.run pID ops = .ok s ∧ s.mem.LinesFit ∧ ∀ tID,
      TreeOf s.mem pID tID (n.handles tID) ((Ledger.run pID ops).thread tID) ∧
      ∀ op n' s', op.isMeasure → op.caller.tid ≠ tID → n.step op = some n' → s.step op = .ok s' →
        s'.mem.view pID tID = s.mem.view pID tID) ↔
      (∀ op ∈ ops, op.named) ∧ ∀ pre op post, ops = pre ++ op :: post → op.Shallow pID pre := by
  constructor
  · rintro ⟨s, hs, hfit, -⟩
    refine ⟨fun op hmem => ?_, (InProc.run_linesFit_iff hs).mp hfit⟩
    obtain ⟨pre, post, hsplit⟩ := List.append_of_mem hmem
    exact (InProc.run_ok_iff.mp ⟨s, hs⟩ pre op post hsplit).named
  · rintro ⟨hnames, hshallow⟩
    obtain ⟨s, hs⟩ : ∃ s, InProc.run pID ops = .ok s := run_nested hops hnames hreg hn
    exact ⟨s, hs, (InProc.run_linesFit_iff hs).mpr hshallow,
      fun tID => ⟨run_treeOf hops hn hs hbound tID, fun op n' s' =>
        run_view_other hops hn hs⟩⟩

/-! A trace of two threads: one calls `f`, and `f` calls itself; the other calls `g` meanwhile. -/

def twoThreads : List Op :=
  [.start threadA nameF none { timeStamp := 10 }, .start threadB nameG none { timeStamp := 11 },
    .start threadA nameF none { timeStamp := 12 }, .reportThread threadB 1,
    .stop threadA 2 { timeStamp := 15 }, .stop threadB 1 { timeStamp := 16 },
    .reportProcess threadA 42 {}, .stop threadA 0 { timeStamp := 30 }]

theorem twoThreads_registered : ReportsRegistered twoThreads := by
  intro pre caller tID post h
  cases pre with
  | nil => exact absurd h (by simp [twoThreads])
  | cons op pre =>
    obtain ⟨rfl, -⟩ := List.cons.inj h
    exact ⟨_, List.mem_cons_self, rfl⟩

theorem twoThreads_callTrie : ∃ (n : Nesting) (s : InProc), Nesting.run twoThreads = some n ∧
    InProc.run 42 twoThreads = .ok s ∧ s.mem.LinesFit ∧ ∀ tID,
      TreeOf s.mem 42 tID (n.handles tID) ((Ledger.run 42 twoThreads).thread tID) := by
  have hshallow : ∀ pre op post, twoThreads = pre ++ op :: post → op.Shallow 42 pre :=
    fun pre op post hsplit => op.shallow_of_short hsplit (by decide)
  obtain ⟨s, hs, hfit, h⟩ := (callTrie_iff 42 twoThreads _ (by decide) twoThreads_registered rfl
    (by decide)).mpr ⟨by decide, hshallow⟩
  exact ⟨_, s, rfl, hs, hfit, fun tID => (h tID).1⟩

/-- `RDKPerfStart("")`. -/
def unnamedCall : List Op := [.start threadA ⟨[], by decide⟩ none {}]

/-- It leaves no tree, the build has no state after it. -/
theorem unnamedCall_treeless : ¬ ∀ (pID : pid_t) (ops : List Op) (n : Nesting),
    (∀ op ∈ ops, op.isMeasure ∨ op.isReport) → ReportsRegistered ops → Nesting.run ops = some n →
      ops.countP Op.isStart < 2 ^ 64 → ∃ s, InProc.run pID ops = .ok s ∧ ∀ tID,
        TreeOf s.mem pID tID (n.handles tID) ((Ledger.run pID ops).thread tID) := by
  intro hall
  have hreg : ReportsRegistered unnamedCall := by
    intro pre caller tID post h
    cases pre with
    | nil => exact absurd h (by simp [unnamedCall])
    | cons op pre =>
      obtain ⟨rfl, -⟩ := List.cons.inj h
      exact ⟨_, List.mem_cons_self, rfl⟩
  obtain ⟨s, hs, -⟩ := hall 42 unnamedCall _ (by decide) hreg rfl (by decide)
  exact InProc.run_ok_iff.mp ⟨s, hs⟩ [] _ [] rfl rfl

end RdkPerf

import RdkPerf.Model.TreeObject
import RdkPerf.Proof.Answers

/-!
# When an entry message is handled inside its arrays

Three lengths meet: a name field has 128 bytes, a sender fills at most 127 of them, and the tree's
array takes 16. The code trusts a terminator for the first, does not check the second, and lets
the string decide how much is copied into the third. What is left is one condition on each field.
The name of a call has a second one: the node that keeps it has no storage for a name without bytes.
-/

namespace RdkPerf

open Lib Layout

variable {msg : PerfMessage} {object : TreeObject} {tree tree' : PerfTree} {b : Bool}

/-! ## The copy -/

theorem threadName_inside : threadNameAt + THREAD_NAMELEN ≤ PERF_TREE_SIZE := by decide

theorem fields_inside : dataAt entry 2 + MAX_NAME_LEN ≤ PERF_MSG_SIZE ∧
    dataAt entry 3 + MAX_NAME_LEN ≤ PERF_MSG_SIZE := by decide

/-- A terminator among the first `n` bytes of `szThreadName`: as many bytes are read. -/
theorem nul_mem_threadName {n : Nat} (hn : n ≤ MAX_NAME_LEN) :
    0 ∈ msg.slice (dataAt entry 3) n ↔ msg.threadNameBytes.length < n := by
  have hin := Nat.le_trans (Nat.add_le_add_left hn _) fields_inside.2
  rw [← Buf.stringSpan_within_iff hin, Span.within_iff (Nat.succ_ne_zero _)]
  show dataAt entry 3 ≤ dataAt entry 3 ∧
    dataAt entry 3 + (msg.threadNameBytes.length + 1) ≤ dataAt entry 3 + n ↔ _
  omega

namespace TreeObject

/-- **The array is terminated after the copy** exactly when the name is shorter than it. -/
theorem nul_mem_copy (hzero : object.m_ThreadName = List.replicate THREAD_NAMELEN 0) :
    0 ∈ (object.copyThreadName msg).m_ThreadName ↔
      msg.threadNameBytes.length < THREAD_NAMELEN := by
  constructor
  · intro h
    by_contra hlong
    obtain ⟨i, hi, hnul⟩ := Buf.mem_slice_iff.mp h
    -- every byte of the array is one of the name's
    rw [copyThreadName, Buf.byteAt_write _ _ _ _ ⟨by omega, by omega⟩
      (Nat.lt_of_lt_of_le (Nat.add_lt_add_left hi _) threadName_inside)] at hnul
    exact Buf.nul_notMem_stringBytes (hnul ▸ List.get_mem _ _)
  · intro hshort
    refine Buf.mem_slice_iff.mpr ⟨_, hshort, ?_⟩
    rw [copyThreadName, Buf.byteAt_write_of_outside _ _ _ _ (Or.inr (Nat.le_refl _))]
    have hmem : object.byteAt (threadNameAt + msg.threadNameBytes.length) ∈ object.m_ThreadName :=
      Buf.mem_slice_iff.mpr ⟨_, hshort, rfl⟩
    rw [hzero] at hmem
    exact List.eq_of_mem_replicate hmem

/-- A name without a terminator fills the array. -/
theorem nul_mem_iff : 0 ∈ object.m_ThreadName ↔ object.threadName.length < THREAD_NAMELEN := by
  have hall : object.m_ThreadName.take THREAD_NAMELEN = object.m_ThreadName :=
    List.take_of_length_le (Nat.le_of_eq (Buf.length_slice _ _ _))
  constructor
  · intro h
    exact (Buf.mem_take_iff_takeWhile.mp (hall ▸ h)).2
  · intro h
    by_contra hnone
    have hself : object.threadName = object.m_ThreadName := by
      refine List.takeWhile_eq_self_iff.mpr fun c hc => ?_
      simpa using fun h0 : c = 0 => hnone (h0 ▸ hc)
    rw [hself, m_ThreadName, Buf.length_slice] at h
    exact absurd h (Nat.lt_irrefl _)

/-- The copy refuses nothing; where the model's does, it leaves the array. -/
theorem copy_ok_iff : (∃ tree', PerfTree.copyThreadName tree msg.threadNameBytes = .ok tree') ↔
    (⟨threadNameAt, msg.threadNameBytes.length⟩ : Span).Within threadNameAt THREAD_NAMELEN := by
  have hwithin : (⟨threadNameAt, msg.threadNameBytes.length⟩ : Span).Within threadNameAt
      THREAD_NAMELEN ↔ msg.threadNameBytes.length ≤ THREAD_NAMELEN := by
    constructor
    · intro h
      by_contra hlong
      have hlast := h (threadNameAt + THREAD_NAMELEN) ⟨Nat.le_add_right _ _, by simp only; omega⟩
      exact Nat.lt_irrefl _ hlast.2
    · exact fun h => Span.within_of_le (Nat.le_refl _) (Nat.add_le_add_left h _)
  rw [hwithin, PerfTree.copyThreadName]
  split
  · next h => exact iff_of_true ⟨_, rfl⟩ h
  · next h =>
    refine iff_of_false ?_ h
    rintro ⟨tree', hok⟩
    exact absurd hok (by simp)

/-- **The copy is the model's**: where that is defined, the object stays the tree's. -/
theorem IsOf.copyThreadName (hobject : object.IsOf none)
    (hcopy : PerfTree.copyThreadName {} msg.threadNameBytes = .ok tree') :
    (object.copyThreadName msg).IsOf (some tree') := by
  have hbytes : tree'.threadName = msg.threadNameBytes ∧
      msg.threadNameBytes.length ≤ THREAD_NAMELEN := by
    unfold PerfTree.copyThreadName at hcopy
    split at hcopy
    · next h =>
      obtain rfl := Except.ok.inj hcopy
      exact ⟨by simp, h⟩
    · exact absurd hcopy (by simp)
  show (Buf.slice _ _ _).takeWhile _ = tree'.threadName
  have hzero : object.slice threadNameAt THREAD_NAMELEN = List.replicate THREAD_NAMELEN 0 := hobject
  rw [hbytes.1, TreeObject.copyThreadName, Buf.slice_write_start _ threadName_inside, hzero,
    List.drop_replicate, List.take_of_length_le (by simp; omega), List.takeWhile_append_of_pos]
  · rw [List.takeWhile_replicate, if_neg (by simp), List.append_nil]
  · intro c hc
    simpa using fun h0 : c = 0 => Buf.nul_notMem_stringBytes (h0 ▸ hc)

end TreeObject

/-! ## The message -/

/-- The names are read inside their fields, nothing but `m_ThreadName` is written, nor anything through
    a null pointer, and `m_ThreadName` is terminated. -/
structure Touched.WithinBounds (touched : Touched) : Prop where
  szName : ∀ s ∈ touched.szName, s.Within (dataAt entry 2) MAX_NAME_LEN
  szThreadName : ∀ s ∈ touched.szThreadName, s.Within (dataAt entry 3) MAX_NAME_LEN
  written : ∀ s ∈ touched.written, s.Within threadNameAt THREAD_NAMELEN
  writtenNull : touched.writtenNull = []
  terminated : 0 ∈ touched.after.m_ThreadName
  others : ∀ i, ¬ (threadNameAt ≤ i ∧ i < threadNameAt + THREAD_NAMELEN) →
    touched.after.byteAt i = touched.before.byteAt i

/-- There is a terminator in the field `szName`, and not at its start; the tree has a terminated name,
    or it is new and there is a terminator among the bytes of `szThreadName` that its array takes. -/
def NamesFit (msg : PerfMessage) : Option PerfTree → Prop
  | none => (0 ∈ msg.slice (dataAt entry 2) MAX_NAME_LEN ∧ msg.nameBytes ≠ []) ∧
      0 ∈ msg.slice (dataAt entry 3) THREAD_NAMELEN
  | some tree => (0 ∈ msg.slice (dataAt entry 2) MAX_NAME_LEN ∧ msg.nameBytes ≠ []) ∧
      tree.threadName.length < THREAD_NAMELEN

instance (msg : PerfMessage) : ∀ tree, Decidable (NamesFit msg tree)
  | none => inferInstanceAs (Decidable (_ ∧ _))
  | some _ => inferInstanceAs (Decidable (_ ∧ _))

theorem nameSpan_within_iff : msg.nameSpan.Within (dataAt entry 2) MAX_NAME_LEN ↔
    0 ∈ msg.slice (dataAt entry 2) MAX_NAME_LEN :=
  Buf.stringSpan_within_iff fields_inside.1

theorem threadNameSpan_within_iff : msg.threadNameSpan.Within (dataAt entry 3) MAX_NAME_LEN ↔
    0 ∈ msg.slice (dataAt entry 3) MAX_NAME_LEN :=
  Buf.stringSpan_within_iff fields_inside.2

namespace Service

variable {ds : List Delivery} {s : State}

/-- A tree that is registered has a node. -/
theorem treeOf_active (hs : run ds = .ok s) {pID : pid_t} {tID : pthread_t}
    (h : treeOf s.mem pID tID = some tree) : tree.activeNode.isEmpty = false := by
  obtain ⟨w, hR⟩ := run_rep hs
  obtain ⟨t, ht, htree⟩ := Option.bind_eq_some_iff.mp h
  obtain ⟨r, ct, hA⟩ := hR.present ht
  obtain ⟨pTop, rest, htree', -⟩ := hA.tracks.top
  obtain rfl := Option.some.inj (htree.symm.trans htree')
  rfl

theorem constructTouches_iff {szName : Name} :
    PerfNode.constructTouches szName = [] ↔ szName ≠ [] := by
  unfold PerfNode.constructTouches
  split
  · next h => exact iff_of_false (by simp) fun hne => hne h
  · next h => exact iff_of_true rfl h

/-- No node is called by the empty name. -/
theorem childOfTop_unnamed (hs : run ds = .ok s) {pID : pid_t} {tID : pthread_t}
    (h : treeOf s.mem pID tID = some tree) : childOfTop s.mem tree [] = none := by
  obtain ⟨w, hR⟩ := run_rep hs
  obtain ⟨t, ht, htree⟩ := Option.bind_eq_some_iff.mp h
  obtain ⟨r, ct, hA⟩ := hR.present ht
  obtain ⟨pTop, rest, htree', htop⟩ := hA.tracks.top
  obtain rfl := Option.some.inj (htree.symm.trans htree')
  show childOf s.mem pTop [] = none
  by_contra hchild
  obtain ⟨c, hc⟩ := Option.ne_none_iff_exists'.mp hchild
  exact hA.tracks.named (walk_cons_eq_some.mpr ⟨pTop, htop, hc⟩) List.mem_cons_self

/-- The first entry of a thread names its tree and makes a node. -/
theorem handleEntryTouches_new {m : Mem} (object : TreeObject)
    (hnone : treeOf m msg.entry.pID msg.entry.tID = none) : handleEntryTouches m object msg =
      { PerfTree.addNodeTouches true true object msg with
        szName := [msg.nameSpan, msg.nameSpan, msg.nameSpan] } := by
  rw [handleEntryTouches, hnone]
  rfl

theorem withinBounds_new (hobject : object.IsOf none) (hnone : treeOf s.mem msg.entry.pID
    msg.entry.tID = none) : (handleEntryTouches s.mem object msg).WithinBounds ↔
      NamesFit msg none := by
  rw [handleEntryTouches_new object hnone]
  constructor
  · intro h
    refine ⟨⟨nameSpan_within_iff.mp (h.szName _ List.mem_cons_self),
      constructTouches_iff.mp h.writtenNull⟩, ?_⟩
    exact (nul_mem_threadName (by decide)).mpr ((TreeObject.nul_mem_copy hobject).mp h.terminated)
  · rintro ⟨⟨hname, hne⟩, hthread⟩
    have hshort := (nul_mem_threadName (by decide)).mp hthread
    have hspan := nameSpan_within_iff.mpr hname
    have hread : msg.threadNameSpan.Within (dataAt entry 3) MAX_NAME_LEN :=
      threadNameSpan_within_iff.mpr
        ((nul_mem_threadName (Nat.le_refl _)).mpr (Nat.lt_trans hshort (by decide)))
    refine ⟨?_, ?_, ?_, constructTouches_iff.mpr hne, (TreeObject.nul_mem_copy hobject).mpr hshort,
      fun i hi => ?_⟩
    · intro s hmem
      simp only [List.mem_cons, List.not_mem_nil, or_false, or_self] at hmem
      rw [hmem]
      exact hspan
    · intro s hmem
      simp only [PerfTree.addNodeTouches, if_true, List.mem_cons, List.not_mem_nil, or_false]
        at hmem
      rcases hmem with rfl | rfl | rfl
      · exact hread
      · refine Span.within_of_le (Nat.le_refl _) (Nat.add_le_add_left ?_ _)
        exact Nat.le_of_lt (Nat.lt_trans hshort (by decide))
      · exact hread
    · intro s hmem
      obtain rfl := List.mem_singleton.mp hmem
      exact Span.within_of_le (Nat.le_refl _) (Nat.add_le_add_left (Nat.le_of_lt hshort) _)
    · refine Buf.byteAt_write_of_outside _ _ _ _ ?_
      have hcopied : (PerfMessage.threadNameBytes msg).length < THREAD_NAMELEN := hshort
      omega

/-- **An entry message is handled inside its arrays** exactly when its names fit. -/
theorem entry_within_iff (hs : run ds = .ok s) (msg : PerfMessage) (object : TreeObject)
    (hobject : object.IsOf (treeOf s.mem msg.entry.pID msg.entry.tID)) :
    (handleEntryTouches s.mem object msg).WithinBounds ↔
      NamesFit msg (treeOf s.mem msg.entry.pID msg.entry.tID) := by
  cases htree : treeOf s.mem msg.entry.pID msg.entry.tID with
  | none => exact withinBounds_new (htree ▸ hobject) htree
  | some tree =>
    have hname : object.threadName = tree.threadName := by
      rw [htree] at hobject
      exact hobject
    let writtenNull := if (childOfTop s.mem tree msg.nameBytes).isNone then
      PerfNode.constructTouches msg.nameBytes else []
    have htouched : handleEntryTouches s.mem object msg =
        ⟨[msg.nameSpan, msg.nameSpan], [], [], writtenNull, object, object⟩ := by
      simp only [handleEntryTouches, htree, Option.all_some, treeOf_active hs htree,
        Option.bind_some]
      rfl
    have hnull : writtenNull = [] ↔ msg.nameBytes ≠ [] := by
      simp only [writtenNull]
      split
      · exact constructTouches_iff
      · next hchild =>
        -- what is found under a name has one
        refine iff_of_true rfl fun hempty => hchild ?_
        rw [hempty, childOfTop_unnamed hs htree]
        rfl
    rw [htouched]
    constructor
    · intro h
      refine ⟨⟨nameSpan_within_iff.mp (h.szName _ List.mem_cons_self), hnull.mp h.writtenNull⟩, ?_⟩
      rw [← hname]
      exact TreeObject.nul_mem_iff.mp h.terminated
    · rintro ⟨⟨hfield, hne⟩, hshort⟩
      rw [← hname] at hshort
      refine ⟨fun s hmem => ?_, fun _ h => absurd h (List.not_mem_nil),
        fun _ h => absurd h (List.not_mem_nil), hnull.mpr hne, TreeObject.nul_mem_iff.mpr hshort,
        fun _ _ => rfl⟩
      simp only [List.mem_cons, List.not_mem_nil, or_false, or_self] at hmem
      rw [hmem]
      exact nameSpan_within_iff.mpr hfield

end Service

/-! ## Runs whose entries fit -/

namespace World

variable {w w' : World} {p : pid_t} {t : pthread_t}

/-- Putting a tree back under its name keeps the names. -/
theorem set_named {q : pid_t} {u : pthread_t} {ct₁ ct₂ ct' : CallTree} (hct₁ : w.tree q u = some ct₁)
    (hname : ct₂.threadName = ct₁.threadName) (hct' : (w.set q u (some ct₂)).tree p t = some ct') :
    ∃ ct, w.tree p t = some ct ∧ ct'.threadName = ct.threadName := by
  rw [set_tree] at hct'
  split at hct'
  · next hk =>
    obtain rfl := Option.some.inj hct'
    exact ⟨ct₁, hk.1 ▸ hk.2 ▸ hct₁, hname⟩
  · exact ⟨ct', hct', rfl⟩

/-- **A tree is named once**: after a message it has the name it had, or the message is the entry
    that made it. -/
theorem handle_named (h : w.handle msg = .ok (w', b)) {ct' : CallTree}
    (hct' : w'.tree p t = some ct') :
    (∃ ct, w.tree p t = some ct ∧ ct'.threadName = ct.threadName) ∨
      (MessageType.ofCode msg.type = some .eEntry ∧ w.tree p t = none ∧ msg.entry.pID = p ∧
        msg.entry.tID = t ∧ fitThreadName msg.entry.szThreadName = .ok ct'.threadName) := by
  cases handle_cases h with
  | entry ct szName htype hinit hname =>
    -- entering a call and setting a threshold keep the name
    have hkept : ∀ {nUS : Int32}, (if nUS > 0 then
        (ct.enter szName).onNode (ct.enter szName).active (·.setThreshold nUS)
      else ct.enter szName).threadName = ct.threadName := by
      intro nUS
      split <;> rfl
    rcases treeOrInit_cases hinit with hct | ⟨hnone, name, hfit, rfl⟩
    · exact Or.inl (set_named hct hkept hct')
    · rw [set_tree] at hct'
      split at hct'
      · next hk =>
        obtain rfl := Option.some.inj hct'
        rw [hk.1, hk.2, hkept]
        exact Or.inr ⟨htype, hnone, rfl, rfl, hfit⟩
      · exact Or.inl ⟨ct', hct', rfl⟩
  | threshold ct htype hct => exact Or.inl (set_named hct (by rfl) hct')
  | exit ct htype hct hname => exact Or.inl (set_named hct (by simp [CallTree.stop]) hct')
  | reportThread ct htype hct => exact Or.inl (set_named hct (by rfl) hct')
  | reportProcess htype =>
    obtain ⟨ct, hct, rfl | rfl⟩ := tree_of_reportProcess hct'
    · exact Or.inl ⟨ct', hct, rfl⟩
    · exact Or.inl ⟨ct, hct, rfl⟩
  | closeThread htype =>
    rw [set_tree] at hct'
    split at hct'
    · exact absurd hct' (by simp)
    · exact Or.inl ⟨ct', hct', rfl⟩
  | closeProcess htype => exact Or.inl ⟨ct', tree_of_removeProcess hct', rfl⟩
  | rejected hentry hclose => exact Or.inl ⟨ct', hct', rfl⟩

end World

namespace Service

/-- Every entry of the run met a tree its names fit. -/
def EntriesFit (ds : List Delivery) : Prop :=
  ∀ pre d post s, ds = pre ++ d :: post → run pre = .ok s →
    MessageType.ofCode d.msg.type = some .eEntry →
      NamesFit d.msg (treeOf s.mem d.msg.entry.pID d.msg.entry.tID)

theorem EntriesFit.left {ds : List Delivery} {d : Delivery} (h : EntriesFit (ds ++ [d])) :
    EntriesFit ds := by
  intro pre d' post s hsplit
  exact h pre d' (post ++ [d]) s (by rw [hsplit]; simp)

/-- A name that was taken is the string in the message. -/
theorem threadNameBytes_of_fit {n : Name} (h : fitThreadName msg.entry.szThreadName = .ok n) :
    msg.threadNameBytes = n := by
  have hstring : ∀ szThreadName, fitThreadName szThreadName = .ok n → szThreadName = some n := by
    intro szThreadName h
    cases szThreadName with
    | none => exact absurd h (by simp [fitThreadName])
    | some name =>
      simp only [fitThreadName] at h
      split at h
      · exact congrArg some (Except.ok.inj h)
      · exact absurd h (by simp)
  show ((PerfMessage.entry msg).szThreadName).getD _ = n
  rw [hstring _ h]
  rfl

/-- In the world of such a run all names are shorter than the array. -/
theorem EntriesFit.world {ds : List Delivery} {ws : World × List (Delivery × Bool)}
    (hfit : EntriesFit ds) (hws : ds.foldlM World.step (.init, []) = .ok ws) {p : pid_t}
    {t : pthread_t} {ct : CallTree} (hct : ws.1.tree p t = some ct) :
    ct.threadName.length < THREAD_NAMELEN := by
  induction ds using List.reverseRecOn generalizing ws p t ct with
  | nil =>
    obtain rfl := Except.ok.inj hws
    exact absurd hct (by simp [World.init])
  | append_singleton ds d ih =>
    obtain ⟨ws₁, hws₁, hstep⟩ := foldlM_concat_ok.mp hws
    obtain ⟨⟨w', b⟩, hhandle, hws'⟩ := bind_eq_ok.mp hstep
    obtain rfl := Except.ok.inj hws'
    rcases World.handle_named hhandle hct with ⟨ct₁, hct₁, hname⟩ | ⟨htype, hnone, rfl, rfl, hname⟩
    · rw [hname]
      exact ih hfit.left hws₁ hct₁
    · obtain ⟨s₁, hs₁, hS₁⟩ := run_sim_back hws₁
      have hnew : treeOf s₁.mem d.msg.entry.pID d.msg.entry.tID = none := by
        show (s₁.mem.treePtr _ _).bind _ = none
        rw [hS₁.rep.treePtr_none_iff.mpr hnone]
        rfl
      have hnames := hfit ds d [] s₁ rfl hs₁ htype
      rw [hnew] at hnames
      rw [← threadNameBytes_of_fit hname]
      exact (nul_mem_threadName (by decide)).mp hnames.2

/-- **Entries that fit leave terminated names**: after them a thread that has a tree needs nothing
    but a `szName` that is terminated and not empty. -/
theorem run_names_terminated {ds : List Delivery} {s : State} (hs : run ds = .ok s)
    (hfit : EntriesFit ds) {pID : pid_t} {tID : pthread_t}
    (h : treeOf s.mem pID tID = some tree) : tree.threadName.length < THREAD_NAMELEN := by
  obtain ⟨ws, hws, hS⟩ := run_sim hs
  obtain ⟨t, ht, htree⟩ := Option.bind_eq_some_iff.mp h
  obtain ⟨r, ct, hA⟩ := hS.rep.present ht
  obtain ⟨stack, htree', -⟩ := hA.tracks.tree
  obtain rfl := Option.some.inj (htree.symm.trans htree')
  exact hfit.world hws hA.spec

/-! ## Two first entries -/

/-- An object as `PerfTree()` leaves it. -/
def newTreeObject : TreeObject := Buf.zero

/-- An entry of `f` whose `szThreadName` is `bytes`, terminated where these end. -/
def namedEntry (bytes : Name) : PerfMessage :=
  let msg := PerfMsgQueue.putIds (PerfMsgQueue.blank .eEntry) entry ⟨threadA, 42⟩
  (msg.write (dataAt entry 2) nameF.bytes).write (dataAt entry 3) bytes

/-- Fifteen bytes, as `pthread_getname_np` gives at most, fit. -/
theorem fifteenBytes_within : ∃ s, run [] = .ok s ∧
    newTreeObject.IsOf (treeOf s.mem 42 1) ∧
    (handleEntryTouches s.mem newTreeObject (namedEntry (List.replicate 15 65))).WithinBounds := by
  have hobject : newTreeObject.IsOf (treeOf State.init.mem 42 1) := by
    show newTreeObject.m_ThreadName = List.replicate THREAD_NAMELEN 0
    decide
  refine ⟨.init, rfl, hobject, ?_⟩
  have hrun : run [] = .ok .init := rfl
  exact (entry_within_iff hrun (namedEntry (List.replicate 15 65)) newTreeObject
    hobject).mpr (by decide)

/-- Twenty-four are copied over `m_ThreadName` and `m_ActivityCount`. -/
theorem longThreadName_overruns : ∃ s, run [] = .ok s ∧
    newTreeObject.IsOf (treeOf s.mem 42 1) ∧
    ∃ touched, handleEntryTouches s.mem newTreeObject (namedEntry (List.replicate 24 65)) =
        touched ∧ touched.written = [⟨16, 24⟩] ∧ touched.before.activityCount = 0 ∧
      touched.after.activityCount = 0x4141414141414141 ∧ ¬ touched.WithinBounds := by
  refine ⟨.init, rfl, ?_, _, rfl, by decide, by decide, by decide, fun h => ?_⟩
  · show newTreeObject.m_ThreadName = List.replicate THREAD_NAMELEN 0
    decide
  · exact absurd h.terminated (by decide)

end Service
end RdkPerf

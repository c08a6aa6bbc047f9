import RdkPerf.Proof.InProcOps
import RdkPerf.Spec.Ledger

/-!
# The in-process build keeps the ledger

`Sim pID s L` — the memory of `s` represents the trees the ledger calls for, and every record that
exists either holds the node of its open call or is **loose**: its node was deleted under it. A
stop of a loose record has no outcome; everything else the interface can do is a step of the
ledger (`step_ok`, `step_legal`), and nothing is assumed about the order of stops or about which
thread makes them.

What carries the proof is in `attached`: a handle that still has a frame in a thread's log has a
record, and that record holds the node at the frame's path. Two records never hold one node,
because two frames never have one path.
-/

namespace RdkPerf

open Lib

/-- The record of `h` holds the node of the call it opened, the innermost of `calls`. -/
structure Holds (s : InProc) (L : Ledger) (tID : pthread_t) (h : Handle) (calls : List Started)
    (record : PerfRecord) (p : NodePtr) : Prop where
  get : s.records.get h = some record
  idThread : record.idThread = tID
  node : record.nodeInTree = some p
  startTime : record.startTime = startOf calls
  name : record.elementName = Path.label (pathOf calls)
  nodeIs : NodeIs s.mem (L.world s.pID) s.pID tID (pathOf calls) p

/-- The handle has a frame in the thread's log, and `calls` is what it closes, outwards. -/
def OpenCall (L : Ledger) (tID : pthread_t) (h : Handle) (calls : List Started) : Prop :=
  ∃ l, L.thread tID = some l ∧ Frames.trail h l.frames = some calls

structure Sim (pID : pid_t) (s : InProc) (L : Ledger) : Prop where
  pID : s.pID = pID
  rep : Rep s.mem (L.world s.pID)
  next : s.records.next = L.next
  opened : ∀ h, s.records.get h ≠ none ↔ h ∈ L.opened
  ordered : ∀ {tID l}, L.thread tID = some l → Frames.Ordered l.frames
  attached : ∀ {tID h calls}, OpenCall L tID h calls → ∃ record p, Holds s L tID h calls record p
  loose : ∀ {h record}, s.records.get h = some record →
    (∃ calls, OpenCall L record.idThread h calls) ∨
      ∃ p, record.nodeInTree = some p ∧ p < s.mem.nodes.next ∧ s.mem.nodes.get p = none

/-- A call the ledger can book: a start has a name, the others name an open record, and a stop one
    that is not loose; a thread is reported only while the process is registered. -/
def Legal (L : Ledger) : Op → Prop
  | .start _ szName _ _ => szName.bytes ≠ []
  | .stop _ h _ => ∃ tID calls, OpenCall L tID h calls
  | .setThreshold _ h _ => h ∈ L.opened
  | .reportThread _ _ => L.registered = true
  | .reportProcess _ _ _ => True
  | .closeThread _ _ => True
  | .closeProcess _ _ => True

theorem Legal.named {L : Ledger} {op : Op} (h : Legal L op) : op.named := by
  cases op with
  | start caller szName nThresholdInUS env => exact decide_eq_true (show szName.bytes ≠ [] from h)
  | _ => rfl

theorem Sim.init (pID : pid_t) : Sim pID (.init pID) .init where
  pID := rfl
  rep := by
    have hw : Ledger.init.world pID = World.init := by
      refine World.ext (funext fun p => ?_) (funext fun p => funext fun s => ?_)
      · simp [Ledger.world, Ledger.init, World.init]
      · simp [Ledger.world, Ledger.init, World.init]
    show Rep Mem.init (Ledger.init.world pID)
    rw [hw]
    exact .init
  next := rfl
  opened h := by simp [InProc.init, Ledger.init]
  ordered h := absurd h (by simp [Ledger.init])
  attached := by
    rintro tID h calls ⟨l, hl, -⟩
    exact absurd hl (by simp [Ledger.init])
  loose h := absurd h (by simp [InProc.init])

variable {pID : pid_t} {s s' : InProc} {L L' : Ledger} {tID : pthread_t} {h h' : Handle}
  {calls calls' : List Started} {record : PerfRecord} {p : NodePtr}

theorem OpenCall.mem_handles (ho : OpenCall L tID h calls) :
    h ∈ Frames.handles (L.frames tID) := by
  obtain ⟨l, hl, ht⟩ := ho
  rw [Ledger.frames_of_some hl]
  refine Classical.byContradiction fun hn => ?_
  rw [Frames.trail_eq_none_iff.mpr hn] at ht
  exact absurd ht (by simp)

theorem exists_openCall (hh : h ∈ Frames.handles (L.frames tID)) :
    ∃ calls, OpenCall L tID h calls := by
  cases hl : L.thread tID with
  | none =>
    rw [Ledger.frames, hl] at hh
    exact absurd hh (by simp [Frames.handles])
  | some l =>
    rw [Ledger.frames_of_some hl] at hh
    obtain ⟨calls, ht⟩ := Frames.exists_trail hh
    exact ⟨calls, l, hl, ht⟩

/-- The same call, with a threshold of its own. -/
def SameCall (record record' : PerfRecord) : Prop :=
  record' = { record with thresholdInUS := record'.thresholdInUS }

theorem SameCall.refl (record : PerfRecord) : SameCall record record := rfl

theorem SameCall.setThreshold (record : PerfRecord) (nUS : Int32) :
    SameCall record (record.setThreshold nUS) := rfl

/-- The call does not close `h`. -/
def Spares (op : Op) (h : Handle) : Prop := ∀ caller env, op ≠ .stop caller h env

theorem spares_of_not_stop {op : Op} (hop : op.isStop = false) (h : Handle) : Spares op h := by
  rintro caller env rfl
  exact absurd hop (by simp [Op.isStop])

namespace Sim

/-- A handle has a frame in one thread's log only. -/
theorem openCall_unique (hS : Sim pID s L) {tID' : pthread_t} (ho : OpenCall L tID h calls)
    (ho' : OpenCall L tID' h calls') : tID = tID' ∧ calls = calls' := by
  obtain ⟨_, _, hH⟩ := hS.attached ho
  obtain ⟨_, _, hH'⟩ := hS.attached ho'
  have hid : tID = tID' := by
    rw [← hH.idThread, ← hH'.idThread, Option.some.inj (hH.get.symm.trans hH'.get)]
  subst hid
  obtain ⟨l, hl, ht⟩ := ho
  obtain ⟨l', hl', ht'⟩ := ho'
  obtain rfl := Option.some.inj (hl.symm.trans hl')
  exact ⟨rfl, Option.some.inj (ht.symm.trans ht')⟩

/-- A handle that has a frame was handed out. -/
theorem lt_next (hS : Sim pID s L) (ho : OpenCall L tID h calls) : h < L.next := by
  obtain ⟨_, _, hH⟩ := hS.attached ho
  rw [← hS.next]
  exact Store.lt_next hH.get

theorem mem_opened (hS : Sim pID s L) (ho : OpenCall L tID h calls) : h ∈ L.opened := by
  obtain ⟨record, _, hH⟩ := hS.attached ho
  rw [← hS.opened, hH.get]
  simp

theorem handle_lt_next (hS : Sim pID s L) (hh : h ∈ Frames.handles (L.frames tID)) :
    h < L.next := by
  cases hl : L.thread tID with
  | none =>
    rw [Ledger.frames, hl] at hh
    exact absurd hh (by simp [Frames.handles])
  | some l =>
    rw [Ledger.frames_of_some hl] at hh
    obtain ⟨calls, ht⟩ := Frames.exists_trail hh
    exact hS.lt_next ⟨l, hl, ht⟩

theorem ordered_frames (hS : Sim pID s L) (tID : pthread_t) : Frames.Ordered (L.frames tID) := by
  cases hl : L.thread tID with
  | none =>
    rw [Ledger.frames, hl]
    exact List.Pairwise.nil
  | some l =>
    rw [Ledger.frames_of_some hl]
    exact hS.ordered hl

/-! ## What a call does to the open calls -/

/-- A call that is open afterwards was open before, or was just started. -/
theorem openCall_of_step (hS : Sim pID s L) {op : Op} (ho : OpenCall (L.step pID op) tID h calls) :
    (OpenCall L tID h calls ∧ Spares op h) ∨
      ∃ caller szName nThresholdInUS env, op = .start caller szName nThresholdInUS env ∧
        caller.tid = tID ∧ h = L.next ∧
        calls = ⟨szName.bytes, env.timeStamp⟩ :: Frames.items (L.frames caller.tid) := by
  obtain ⟨l', hl', ht'⟩ := ho
  rcases Ledger.step_thread pID tID hl' with
    ⟨caller, szName, nThresholdInUS, env, rfl, htid, rfl⟩ | ⟨l, hl, hrest⟩
  · have hframes := Ledger.frames_start L pID tID caller szName nThresholdInUS env
    rw [Ledger.frames_of_some hl', if_pos htid.symm] at hframes
    rw [hframes, Frames.trail_push] at ht'
    split at ht'
    · next hh =>
      exact Or.inr ⟨caller, szName, nThresholdInUS, env, rfl, htid, hh.symm,
        (Option.some.inj ht').symm⟩
    · refine Or.inl ⟨?_, spares_of_not_stop rfl h⟩
      cases hl : L.thread caller.tid with
      | none =>
        rw [Ledger.frames, hl] at ht'
        exact absurd ht' (by simp [Frames.trail])
      | some l =>
        rw [Ledger.frames_of_some hl] at ht'
        exact ⟨l, htid ▸ hl, ht'⟩
  · by_cases hstop : ∃ caller env, op = .stop caller h env
    · -- the handle that is closed is open nowhere
      obtain ⟨caller, env, rfl⟩ := hstop
      obtain ⟨l₁, hl₁, rfl⟩ := Option.map_eq_some_iff.mp hl'
      rw [ThreadLog.stop_frames, Frames.trail_release_self (hS.ordered hl₁)] at ht'
      exact absurd ht' (by simp)
    · have hspare : Spares op h := fun caller env heq => hstop ⟨caller, env, heq⟩
      refine Or.inl ⟨⟨l, hl, ?_⟩, hspare⟩
      rcases hrest with rfl | ⟨-, rfl⟩ | ⟨caller, hPerf, env, rfl, rfl⟩
      · exact ht'
      · exact ht'
      · rw [ThreadLog.stop_frames, Frames.trail_release_of_ne] at ht'
        · exact ht'
        · rintro rfl
          exact hspare caller env rfl

/-- A call that is open stays open, unless it is closed or its log is dropped. -/
theorem openCall_step (hS : Sim pID s L) {op : Op} (ho : OpenCall L tID h calls)
    (hspare : Spares op h) :
    OpenCall (L.step pID op) tID h calls ∨ (L.step pID op).thread tID = none := by
  have hlt := hS.lt_next ho
  obtain ⟨l, hl, ht⟩ := ho
  cases hl' : (L.step pID op).thread tID with
  | none => exact Or.inr rfl
  | some l' =>
    refine Or.inl ⟨l', hl', ?_⟩
    rcases Ledger.step_thread pID tID hl' with
      ⟨caller, szName, nThresholdInUS, env, rfl, htid, rfl⟩ | ⟨l₀, hl₀, hrest⟩
    · have hframes := Ledger.frames_start L pID tID caller szName nThresholdInUS env
      rw [Ledger.frames_of_some hl', if_pos htid.symm, htid, Ledger.frames_of_some hl] at hframes
      rw [hframes, Frames.trail_push, if_neg (Nat.ne_of_gt hlt), ht]
    · obtain rfl := Option.some.inj (hl.symm.trans hl₀)
      rcases hrest with rfl | ⟨-, rfl⟩ | ⟨caller, hPerf, env, rfl, rfl⟩
      · exact ht
      · exact ht
      · rw [ThreadLog.stop_frames, Frames.trail_release_of_ne, ht]
        rintro rfl
        exact hspare caller env rfl

/-- The call that was just started is open. -/
theorem openCall_start (caller : Caller) (szName : CString) (nThresholdInUS : Option UInt32)
    (env : Env) : OpenCall (L.step pID (.start caller szName nThresholdInUS env)) caller.tid L.next
      (⟨szName.bytes, env.timeStamp⟩ :: Frames.items (L.frames caller.tid)) := by
  have hframes := Ledger.frames_start L pID caller.tid caller szName nThresholdInUS env
  have hl' : (L.step pID (.start caller szName nThresholdInUS env)).thread caller.tid = some _ :=
    if_pos rfl
  rw [if_pos rfl, Ledger.frames_of_some hl'] at hframes
  refine ⟨_, hl', ?_⟩
  rw [hframes, Frames.trail_push, if_pos rfl]

theorem ordered_step (hS : Sim pID s L) (op : Op) {l' : ThreadLog}
    (hl' : (L.step pID op).thread tID = some l') : Frames.Ordered l'.frames := by
  rcases Ledger.step_thread pID tID hl' with
    ⟨caller, szName, nThresholdInUS, env, rfl, htid, rfl⟩ | ⟨l, hl, hrest⟩
  · have hframes := Ledger.frames_start L pID tID caller szName nThresholdInUS env
    rw [Ledger.frames_of_some hl', if_pos htid.symm] at hframes
    rw [hframes]
    exact (hS.ordered_frames _).push fun k hk => hS.handle_lt_next hk
  · rcases hrest with rfl | ⟨-, rfl⟩ | ⟨caller, hPerf, env, -, rfl⟩
    · exact hS.ordered hl
    · show Frames.Ordered l.frames
      exact hS.ordered hl
    · rw [ThreadLog.stop_frames]
      exact (hS.ordered hl).release

/-! ## One step, from what it does to the records -/

/-- The records a call spares keep their node. What is left to show of a call is where its memory
    goes, which records it leaves, and, for a start, what its record holds. -/
theorem step (hS : Sim pID s L) {op : Op} (hpID : s'.pID = s.pID)
    (hE : Evolve s.mem (L.world s.pID) s'.mem ((L.step pID op).world s.pID))
    (hnext : s'.records.next = (L.step pID op).next)
    (hopened : ∀ h, s'.records.get h ≠ none ↔ h ∈ (L.step pID op).opened)
    (hkept : ∀ {h record}, s.records.get h = some record → Spares op h →
      ∃ record', s'.records.get h = some record' ∧ SameCall record record')
    (hback : ∀ {h record'}, s'.records.get h = some record' →
      (∃ record, s.records.get h = some record ∧ SameCall record record' ∧ Spares op h) ∨
        ∃ calls, OpenCall (L.step pID op) record'.idThread h calls)
    (hnew : ∀ {caller szName nThresholdInUS env}, op = .start caller szName nThresholdInUS env →
      ∃ record p, Holds s' (L.step pID op) caller.tid L.next
        (⟨szName.bytes, env.timeStamp⟩ :: Frames.items (L.frames caller.tid)) record p) :
    Sim pID s' (L.step pID op) where
  pID := hpID.trans hS.pID
  rep := hpID ▸ hE.rep
  next := hnext
  opened := hopened
  ordered := hS.ordered_step op
  attached := by
    intro tID h calls ho
    rcases hS.openCall_of_step ho with ⟨hold, hspare⟩ | ⟨caller, szName, nThr, env, hop, rfl, rfl, rfl⟩
    · obtain ⟨record, p, hH⟩ := hS.attached hold
      obtain ⟨record', hget, hsame⟩ := hkept hH.get hspare
      rw [hsame] at hget
      refine ⟨_, p, hget, hH.idThread, hH.node, hH.startTime, hH.name, ?_⟩
      obtain ⟨l, hl, -⟩ := ho
      rw [hpID]
      refine hH.nodeIs.evolve hE ?_
      rw [Ledger.world_tree_self, hl]
      simp
    · exact hnew hop
  loose := by
    intro h record' hget
    rcases hback hget with ⟨record, hold, hsame, hspare⟩ | ho
    · have hid : record'.idThread = record.idThread := by rw [hsame]
      have hnode : record'.nodeInTree = record.nodeInTree := by rw [hsame]
      rw [hid, hnode]
      rcases hS.loose hold with ⟨calls, ho⟩ | ⟨p, hp, hlt, hdead⟩
      · rcases hS.openCall_step ho hspare with ho' | hgone
        · exact Or.inl ⟨calls, ho'⟩
        · -- the log was dropped, and the tree with it
          obtain ⟨record₀, p, hH⟩ := hS.attached ho
          obtain rfl := Option.some.inj (hold.symm.trans hH.get)
          refine Or.inr ⟨p, hH.node, Nat.lt_of_lt_of_le ?_ hE.next, hH.nodeIs.gone hE ?_⟩
          · obtain ⟨n, hn⟩ := Option.ne_none_iff_exists'.mp hH.nodeIs.live
            exact Store.lt_next hn
          · rw [Ledger.world_tree_self, hgone]
            rfl
      · exact Or.inr ⟨p, hp, Nat.lt_of_lt_of_le hlt hE.next, hE.dead hlt hdead⟩
    · exact Or.inl ho

/-! ## One call of the interface -/

section Step

variable (caller : Caller) (env : Env)

theorem start_ok (hS : Sim pID s L) {szName : CString} (hname : szName.bytes ≠ [])
    (nThresholdInUS : Option UInt32) : ∃ s', s.construct szName nThresholdInUS caller env = .ok s' ∧
      Sim pID s' (L.step pID (.start caller szName nThresholdInUS env)) := by
  obtain ⟨m', p, ct, hct, hm', hE, hp⟩ := construct_spec hS.rep s.pID hname caller env
  let record : PerfRecord := ⟨szName.bytes, env.timeStamp, caller.tid, some p, -1⟩
  let record' : PerfRecord := nThresholdInUS.elim record (record.setThreshold ·.toInt32)
  have hsame : SameCall record record' := by
    cases nThresholdInUS with
    | none => exact .refl record
    | some nUS => exact .setThreshold record _
  obtain ⟨hactive, hworld⟩ := Ledger.world_start pID s.pID hct szName nThresholdInUS env
  rw [hworld] at hE hp
  have hpath : szName.bytes :: ct.active =
      pathOf (⟨szName.bytes, env.timeStamp⟩ :: Frames.items (L.frames caller.tid)) :=
    congrArg (szName.bytes :: ·) hactive
  rw [hpath] at hp
  let s' : InProc := { s with mem := m', records := s.records.alloc record' }
  have hget : ∀ h, s'.records.get h = if h = L.next then some record' else s.records.get h := by
    intro h
    show (s.records.alloc record').get h = _
    rw [Store.get_alloc, hS.next]
  refine ⟨s', ?_, hS.step rfl hE ?_ ?_ ?_ ?_ ?_⟩
  · rw [InProc.construct, hm']
    cases nThresholdInUS with
    | none => rfl
    | some nUS => rfl
  · exact congrArg (· + 1) hS.next
  · intro h
    rw [hget]
    show _ ↔ h ∈ L.next :: L.opened
    by_cases hh : h = L.next
    · simp [hh]
    · rw [if_neg hh, hS.opened]
      simp [hh]
  · intro h record₁ hrec _
    refine ⟨record₁, ?_, .refl record₁⟩
    rw [hget, if_neg (by rw [← hS.next]; exact Store.ne_next hrec), hrec]
  · intro h record₁ hrec
    rw [hget] at hrec
    split at hrec
    · next hh =>
      obtain rfl := Option.some.inj hrec
      have hid : record'.idThread = caller.tid := by rw [hsame]
      rw [hid, hh]
      exact Or.inr ⟨_, openCall_start caller szName nThresholdInUS env⟩
    · exact Or.inl ⟨record₁, hrec, .refl record₁, spares_of_not_stop rfl h⟩
  · intro caller' szName' nThr' env' heq
    obtain ⟨rfl, rfl, rfl, rfl⟩ := Op.start.inj heq
    have hrec : s'.records.get L.next = some record' := by rw [hget, if_pos rfl]
    rw [hsame] at hrec
    exact ⟨_, p, hrec, rfl, rfl, rfl, rfl, hp⟩

/-- A stop touches the log its handle has a frame in. -/
theorem stop_thread (hS : Sim pID s L) (ho : OpenCall L tID h calls) (u : pthread_t) :
    (L.step pID (.stop caller h env)).thread u =
      if u = tID then (L.thread tID).map (·.stop h env.timeStamp) else L.thread u := by
  show (L.thread u).map (·.stop h env.timeStamp) = _
  split
  · next hu => rw [hu]
  · next hu =>
    cases hl : L.thread u with
    | none => rfl
    | some l =>
      cases ht : Frames.trail h l.frames with
      | none => rw [Option.map_some, ThreadLog.stop_of_none ht]
      | some calls' => exact absurd (hS.openCall_unique ⟨l, hl, ht⟩ ho).1 hu

theorem stop_ok (hS : Sim pID s L) (ho : OpenCall L tID h calls) :
    ∃ s', s.destruct h env = .ok s' ∧ Sim pID s' (L.step pID (.stop caller h env)) := by
  obtain ⟨record, p, hH⟩ := hS.attached ho
  obtain ⟨l, hl, ht⟩ := ho
  have hct : (L.world s.pID).tree s.pID tID = some l.callTree := by
    rw [Ledger.world_tree_self, hl]
    rfl
  obtain ⟨m', hm', hE⟩ := destruct_spec hS.rep hH.nodeIs hH.node hct env
  have hworld : (L.world s.pID).set s.pID tID
      (some (l.callTree.stop (pathOf calls) (env.timeStamp - record.startTime))) =
        (L.step pID (.stop caller h env)).world s.pID := by
    rw [hH.startTime, ← ThreadLog.callTree_stop ht, ← Option.map_some, ← Ledger.world_setThread]
    refine World.ext rfl (funext fun p => funext fun u => ?_)
    show (if p = s.pID then Option.map _ (if u = tID then some _ else L.thread u) else none) =
      if p = s.pID then Option.map _ ((L.step pID (.stop caller h env)).thread u) else none
    rw [hS.stop_thread caller env ⟨l, hl, ht⟩, hl]
    rfl
  rw [hworld] at hE
  let s' : InProc := { s with mem := m', records := s.records.free h }
  have hget : ∀ h', s'.records.get h' = if h' = h then none else s.records.get h' :=
    fun h' => Store.get_free s.records h h'
  refine ⟨s', ?_, hS.step rfl hE hS.next ?_ ?_ ?_ ?_⟩
  · simp only [InProc.destruct, hH.get, hm', ok_bind, pure_eq_ok, s']
  · intro h'
    rw [hget]
    show _ ↔ h' ∈ L.opened.filter (· ≠ h)
    by_cases hh : h' = h
    · simp [hh]
    · rw [if_neg hh, hS.opened]
      simp [hh]
  · intro h' record₁ hrec hspare
    refine ⟨record₁, ?_, .refl record₁⟩
    rw [hget, if_neg, hrec]
    rintro rfl
    exact hspare caller env rfl
  · intro h' record₁ hrec
    rw [hget] at hrec
    split at hrec
    · exact absurd hrec (by simp)
    · next hh =>
      refine Or.inl ⟨record₁, hrec, .refl record₁, fun caller' env' heq => ?_⟩
      exact hh (Op.stop.inj heq).2.1.symm
  · intro caller' szName' nThr' env' heq
    exact absurd heq (by simp)

theorem setThreshold_ok (hS : Sim pID s L) (hh : h ∈ L.opened) (nThresholdInUS : UInt32) :
    ∃ s', s.setThreshhold h nThresholdInUS = .ok s' ∧
      Sim pID s' (L.step pID (.setThreshold caller h nThresholdInUS)) := by
  obtain ⟨record, hrec⟩ := Option.ne_none_iff_exists'.mp ((hS.opened h).mpr hh)
  let set (record : PerfRecord) : PerfRecord := record.setThreshold nThresholdInUS.toInt32
  let s' : InProc := { s with records := s.records.modify h set }
  have hget : ∀ h', s'.records.get h' =
      if h' = h then (s.records.get h').map set else s.records.get h' :=
    fun h' => Store.get_modify s.records h _ h'
  let op : Op := .setThreshold caller h nThresholdInUS
  have hE : Evolve s.mem (L.world s.pID) s'.mem ((L.step pID op).world s.pID) := .refl hS.rep
  refine ⟨s', ?_, hS.step rfl hE hS.next ?_ ?_ ?_ ?_⟩
  · rw [InProc.setThreshhold, hrec]
    rfl
  · intro h'
    show _ ↔ h' ∈ L.opened
    rw [← hS.opened, hget]
    split
    · cases s.records.get h' <;> simp
    · rfl
  · intro h' record₁ hrec₁ _
    by_cases hh' : h' = h
    · exact ⟨_, by rw [hget, if_pos hh', hrec₁, Option.map_some], .setThreshold record₁ _⟩
    · exact ⟨record₁, by rw [hget, if_neg hh', hrec₁], .refl record₁⟩
  · intro h' record' hrec'
    rw [hget] at hrec'
    split at hrec'
    · obtain ⟨record₁, hrec₁, rfl⟩ := Option.map_eq_some_iff.mp hrec'
      exact Or.inl ⟨record₁, hrec₁, .setThreshold record₁ _, spares_of_not_stop rfl h'⟩
    · exact Or.inl ⟨record', hrec', .refl record', spares_of_not_stop rfl h'⟩
  · intro caller' szName' nThr' env' heq
    exact absurd heq (by simp)

/-- A control call is a step of the memory, and the ledger's of the trees. -/
theorem onMem_ok (hS : Sim pID s L) {f : Mem → Except Fault Mem} {w' : World} {op : Op}
    (hf : ∃ m', f s.mem = .ok m' ∧ Evolve s.mem (L.world s.pID) m' w')
    (hop : op.isMeasure = false) (hw : w' = (L.step pID op).world s.pID)
    (hnext : (L.step pID op).next = L.next) (hopened : (L.step pID op).opened = L.opened) :
    ∃ s', s.onMem f = .ok s' ∧ Sim pID s' (L.step pID op) := by
  obtain ⟨m', hm', hE⟩ := hf
  have hspare : ∀ h, Spares op h := by
    rintro h caller env rfl
    exact absurd hop (by simp [Op.isMeasure])
  refine ⟨{ s with mem := m' }, ?_, hS.step rfl (hw ▸ hE) (hS.next.trans hnext.symm) (fun h => ?_)
    (fun {h record} hrec _ => ⟨record, hrec, .refl record⟩)
    (fun {h record} hrec => Or.inl ⟨record, hrec, .refl record, hspare h⟩) ?_⟩
  · rw [InProc.onMem, hm']
    rfl
  · rw [hopened]
    exact hS.opened h
  · rintro caller szName nThr env rfl
    exact absurd hop (by simp [Op.isMeasure])

theorem reportProcess_ok (hS : Sim pID s L) (p : pid_t) :
    ∃ s', s.onMem (InProc.RDKPerf_ReportProcess · p env) = .ok s' ∧
      Sim pID s' (L.step pID (.reportProcess caller p env)) := by
  refine hS.onMem_ok (reportProcess_spec hS.rep p env) rfl ?_ ?_ ?_
  · show _ = Ledger.world (if p = pID then L.reportThreads else L) s.pID
    by_cases hp : p = pID
    · rw [if_pos hp, Ledger.world_reportThreads, hp, hS.pID]
    · rw [if_neg hp, World.reportProcess_of_unregistered hS.rep]
      simp [Ledger.world, hS.pID, hp]
  · simp only [Ledger.step]
    split <;> rfl
  · simp only [Ledger.step]
    split <;> rfl

theorem reportThread_ok (hS : Sim pID s L) (hreg : L.registered = true) (tID : pthread_t) :
    ∃ s', s.onMem (InProc.RDKPerf_ReportThread · s.pID tID) = .ok s' ∧
      Sim pID s' (L.step pID (.reportThread caller tID)) := by
  have hreg' : (L.world s.pID).registered s.pID = true := by simp [Ledger.world, hreg]
  refine hS.onMem_ok (reportThread_spec hS.rep hreg' tID) rfl ?_ rfl rfl
  show _ = (L.setThread tID _).world s.pID
  rw [Ledger.world_setThread, Ledger.world_tree_self]
  cases L.thread tID with
  | none => rfl
  | some l =>
    simp only [Option.map_some, ThreadLog.callTree_report]

theorem closeThread_ok (hS : Sim pID s L) (tID : pthread_t) :
    ∃ s', s.onMem (InProc.RDKPerf_CloseThread · s.pID tID) = .ok s' ∧
      Sim pID s' (L.step pID (.closeThread caller tID)) := by
  refine hS.onMem_ok (closeThread_spec hS.rep s.pID tID) rfl ?_ rfl rfl
  show _ = (L.setThread tID none).world s.pID
  rw [Ledger.world_setThread]
  rfl

theorem closeProcess_ok (hS : Sim pID s L) (p : pid_t) :
    ∃ s', s.onMem (InProc.RDKPerf_CloseProcess · p) = .ok s' ∧
      Sim pID s' (L.step pID (.closeProcess caller p)) := by
  refine hS.onMem_ok (removeProcess_spec hS.rep p) rfl ?_ ?_ ?_
  · rw [hS.pID]
    exact Ledger.world_closeProcess L pID p caller
  · simp only [Ledger.step]
    split <;> rfl
  · simp only [Ledger.step]
    split <;> rfl

end Step

/-- **What the ledger can book has an outcome**, and the ledger books it. -/
theorem step_ok (hS : Sim pID s L) {op : Op} (hop : Legal L op) :
    ∃ s', s.step op = .ok s' ∧ Sim pID s' (L.step pID op) := by
  cases op with
  | start caller szName nThresholdInUS env => exact hS.start_ok caller env hop nThresholdInUS
  | stop caller h env =>
    obtain ⟨tID, calls, ho⟩ := hop
    exact hS.stop_ok caller env ho
  | setThreshold caller h nThresholdInUS => exact hS.setThreshold_ok caller hop nThresholdInUS
  | reportProcess caller p env => exact hS.reportProcess_ok caller env p
  | reportThread caller tID => exact hS.reportThread_ok caller hop tID
  | closeThread caller tID => exact hS.closeThread_ok caller tID
  | closeProcess caller p => exact hS.closeProcess_ok caller p

/-- A report of a thread follows the process it did not find. -/
theorem reportThread_missing (hS : Sim pID s L) (hreg : L.registered = false) {caller : Caller}
    {tID : pthread_t} : s.step (.reportThread caller tID) = .error .nullPointer := by
  have hun : (L.world s.pID).registered s.pID = false := by simp [Ledger.world, hreg]
  simp only [InProc.step, InProc.onMem, InProc.RDKPerf_ReportThread,
    Service.find_unregistered hS.rep hun, throw_eq_error, error_bind]

/-- A start without a name fails in the constructor of its node. -/
theorem start_unnamed (hS : Sim pID s L) {caller : Caller} {szName : CString}
    {nThresholdInUS : Option UInt32} {env : Env} (hname : szName.bytes = []) :
    s.step (.start caller szName nThresholdInUS env) = .error .clearedString := by
  rw [InProc.step, InProc.construct, hname, construct_unnamed hS.rep]
  rfl

/-- What the ledger cannot book has no outcome: it has no name, or it uses a record, a node or a
    process that is not there. -/
theorem step_illegal (hS : Sim pID s L) {op : Op} (hop : ¬ Legal L op) :
    s.step op = .error .clearedString ∨ s.step op = .error .dangling ∨
      s.step op = .error .nullPointer := by
  cases op with
  | start caller szName nThresholdInUS env =>
    left
    exact hS.start_unnamed (not_not.mp hop)
  | stop caller hPerf env =>
    right; left
    cases hget : s.records.get hPerf with
    | none => simp only [InProc.step, InProc.destruct, hget, throw_eq_error]
    | some record =>
      rcases hS.loose hget with ⟨calls, ho⟩ | ⟨p, hp, -, hdead⟩
      · exact absurd ⟨_, calls, ho⟩ hop
      · -- the destructor follows the pointer of a loose record
        simp only [InProc.step, InProc.destruct, hget, PerfRecord.destruct, hp,
          PerfNode.incrementData, Mem.node, hdead, error_bind]
  | setThreshold caller hPerf nThresholdInUS =>
    right; left
    cases hget : s.records.get hPerf with
    | none => simp only [InProc.step, InProc.setThreshhold, hget, throw_eq_error]
    | some record => exact absurd ((hS.opened hPerf).mp (by simp [hget])) hop
  | reportProcess caller p env => exact absurd trivial hop
  | reportThread caller tID =>
    right; right
    exact hS.reportThread_missing (Bool.eq_false_iff.mpr hop)
  | closeThread caller tID => exact absurd trivial hop
  | closeProcess caller p => exact absurd trivial hop

theorem step_legal (hS : Sim pID s L) {op : Op} (h : s.step op = .ok s') : Legal L op := by
  refine Classical.byContradiction fun hop => ?_
  rcases hS.step_illegal hop with he | he | he
  · exact absurd (h.symm.trans he) (by simp)
  · exact absurd (h.symm.trans he) (by simp)
  · exact absurd (h.symm.trans he) (by simp)

theorem step_sim (hS : Sim pID s L) {op : Op} (h : s.step op = .ok s') :
    Sim pID s' (L.step pID op) := by
  obtain ⟨s₁, hs₁, hS₁⟩ := hS.step_ok (hS.step_legal h)
  obtain rfl := Except.ok.inj (h.symm.trans hs₁)
  exact hS₁

end Sim

/-! ## Runs -/

/-- **Every run of the in-process build keeps the ledger.** -/
theorem InProc.run_sim {pID : pid_t} {ops : List Op} {s : InProc} (h : InProc.run pID ops = .ok s) :
    Sim pID s (Ledger.run pID ops) := by
  induction ops using List.reverseRecOn generalizing s with
  | nil =>
    obtain rfl := Except.ok.inj h
    exact .init pID
  | append_singleton ops op ih =>
    obtain ⟨s₁, hs₁, hs⟩ := foldlM_concat_ok.mp h
    rw [Ledger.run_concat]
    exact (ih hs₁).step_sim hs

/-- A run has an outcome exactly when the ledger can book each of its calls. -/
theorem InProc.run_ok_iff {pID : pid_t} {ops : List Op} : (∃ s, InProc.run pID ops = .ok s) ↔
    ∀ pre op post, ops = pre ++ op :: post → Legal (Ledger.run pID pre) op := by
  induction ops using List.reverseRecOn with
  | nil => exact iff_of_true ⟨_, rfl⟩ forall_places_nil
  | append_singleton ops op ih =>
    rw [forall_places_concat, ← ih]
    constructor
    · rintro ⟨s, hs⟩
      obtain ⟨s₁, hs₁, hstep⟩ := foldlM_concat_ok.mp hs
      exact ⟨⟨s₁, hs₁⟩, (run_sim hs₁).step_legal hstep⟩
    · rintro ⟨⟨s₁, hs₁⟩, hlegal⟩
      obtain ⟨s', hs', -⟩ := (run_sim hs₁).step_ok hlegal
      exact ⟨s', foldlM_concat_ok.mpr ⟨s₁, hs₁, hs'⟩⟩

end RdkPerf

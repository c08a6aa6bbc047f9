import RdkPerf.Proof.BuildsAgree
import RdkPerf.Proof.Printing

/-!
# The service reports no threshold

A threshold is carried to the service in the entry message, stored in the node, and never looked
at again: `HandleExit` increments and closes. So the two builds report the same calls exactly when
the in-process build reports none (`threshold_reports_agree_iff`).

What the in-process build reports is read off the trace: the last threshold a record was given, and
when it was started (`Exceeds`). `Recorded` ties both to the fields of the record.
-/

namespace RdkPerf

open Lib

/-! ## What a trace says of a threshold -/

namespace Op

/-- When a start makes its record, and the threshold it gives it. -/
def opening : Op → Option (UInt64 × Option UInt32)
  | .start _ _ nThresholdInUS env => some (env.timeStamp, nThresholdInUS)
  | _ => none

/-- The threshold the call gives the record of `h`. -/
def setTo (h : Handle) : Op → Option UInt32
  | .setThreshold _ hPerf nThresholdInUS => if hPerf = h then some nThresholdInUS else none
  | _ => none

/-- The threshold in the call, whatever record it is for. -/
def threshold : Op → Option UInt32
  | .start _ _ nThresholdInUS _ => nThresholdInUS
  | .setThreshold _ _ nThresholdInUS => some nThresholdInUS
  | _ => none

end Op

/-- The start that answered `h`. -/
def openingOf (pre : List Op) (h : Handle) : Option (UInt64 × Option UInt32) :=
  (pre.filterMap Op.opening)[h]?

/-- The threshold the record of `h` was given last. -/
def thresholdOf (pre : List Op) (h : Handle) : Option UInt32 :=
  (pre.filterMap (Op.setTo h)).getLast?.or ((openingOf pre h).bind Prod.snd)

/-- A stop of `h` now comes later after the start than the threshold allows. What is negative as
    an `int32_t` is no threshold. -/
def Exceeds (pre : List Op) (h : Handle) (env : Env) : Prop :=
  ∃ startTime nThresholdInUS nUS, openingOf pre h = some (startTime, nThresholdInUS) ∧
    thresholdOf pre h = some nUS ∧ 0 < nUS.toInt32 ∧ nUS.toUInt64 < env.timeStamp - startTime

/-- The records hold what the trace says. -/
structure Recorded (pre : List Op) (s : InProc) : Prop where
  next : s.records.next = (pre.filterMap Op.opening).length
  /-- A record that is not made yet is given no threshold. -/
  fresh : ∀ h, s.records.next ≤ h → pre.filterMap (Op.setTo h) = []
  record : ∀ {h record}, s.records.get h = some record → ∃ nThresholdInUS,
    openingOf pre h = some (record.startTime, nThresholdInUS) ∧
      record.thresholdInUS = (thresholdOf pre h).elim (-1) UInt32.toInt32

section Recorded

variable {pID : pid_t} {pre : List Op} {op : Op} {s s' : InProc} {L : Ledger}

theorem Recorded.init (pID : pid_t) : Recorded [] (.init pID) where
  next := rfl
  fresh _ _ := rfl
  record h := absurd h (by simp [InProc.init])

/-- A call that neither makes records nor sets thresholds. -/
theorem Recorded.other (h : Recorded pre s) (hopening : op.opening = none)
    (hset : ∀ h, op.setTo h = none) (hnext : s'.records.next = s.records.next)
    (hget : ∀ {h record}, s'.records.get h = some record → s.records.get h = some record) :
    Recorded (pre ++ [op]) s' := by
  have hopenings : (pre ++ [op]).filterMap Op.opening = pre.filterMap Op.opening := by
    simp [hopening]
  have hsets : ∀ h, (pre ++ [op]).filterMap (Op.setTo h) = pre.filterMap (Op.setTo h) := by
    intro h
    simp [hset h]
  constructor
  case next => rw [hnext, hopenings, h.next]
  case fresh =>
    intro h' hle
    rw [hsets]
    exact h.fresh h' (hnext ▸ hle)
  case record =>
    intro h' record hrec
    rw [thresholdOf, hsets, openingOf, hopenings]
    exact h.record (hget hrec)

theorem Recorded.onMem {f : Mem → Except Fault Mem} (h : Recorded pre s)
    (hopening : op.opening = none) (hset : ∀ h, op.setTo h = none) (hs : s.onMem f = .ok s') :
    Recorded (pre ++ [op]) s' := by
  obtain ⟨m, -, hs⟩ := bind_eq_ok.mp hs
  obtain rfl := Except.ok.inj hs
  exact h.other hopening hset rfl id

theorem Recorded.start (h : Recorded pre s) (hS : Sim pID s L) {caller : Caller}
    {szName : CString} {nThresholdInUS : Option UInt32} {env : Env}
    (hs : s.step (.start caller szName nThresholdInUS env) = .ok s') :
    Recorded (pre ++ [.start caller szName nThresholdInUS env]) s' := by
  obtain ⟨m, p, -, -, hmade, -, -⟩ := construct_spec hS.rep s.pID (hS.step_legal hs) caller env
  -- the record the call makes
  obtain ⟨record, hrecords, hstart, hthr⟩ : ∃ record : PerfRecord,
      s'.records = s.records.alloc record ∧ record.startTime = env.timeStamp ∧
        record.thresholdInUS = nThresholdInUS.elim (-1) UInt32.toInt32 := by
    simp only [InProc.step, InProc.construct, hmade, ok_bind] at hs
    obtain rfl := Except.ok.inj hs
    cases nThresholdInUS with
    | none => exact ⟨_, rfl, rfl, rfl⟩
    | some nUS => exact ⟨_, rfl, rfl, rfl⟩
  have hopenings : (pre ++ [Op.start caller szName nThresholdInUS env]).filterMap Op.opening =
      pre.filterMap Op.opening ++ [(env.timeStamp, nThresholdInUS)] := by
    simp [Op.opening]
  have hsets : ∀ h, (pre ++ [Op.start caller szName nThresholdInUS env]).filterMap (Op.setTo h) =
      pre.filterMap (Op.setTo h) := by
    intro h
    simp [Op.setTo]
  constructor
  case next => rw [hrecords, hopenings, Store.next_alloc, h.next, List.length_append]; rfl
  case fresh =>
    intro h' hle
    rw [hrecords, Store.next_alloc] at hle
    rw [hsets]
    exact h.fresh h' (Nat.le_of_succ_le hle)
  case record =>
    intro h' record' hrec
    rw [hrecords, Store.get_alloc] at hrec
    rw [thresholdOf, hsets, openingOf, hopenings]
    split at hrec
    · next hh =>
      obtain rfl := Option.some.inj hrec
      refine ⟨nThresholdInUS, ?_, ?_⟩
      · rw [hh, h.next, List.getElem?_concat_length, hstart]
      · rw [h.fresh h' (Nat.le_of_eq hh.symm), hh, h.next, List.getElem?_concat_length, hthr]
        rfl
    · obtain ⟨nThr, hopen, hthr'⟩ := h.record hrec
      have hlt : h' < (pre.filterMap Op.opening).length := by
        rw [← h.next]
        exact Store.lt_next hrec
      rw [List.getElem?_append_left hlt]
      exact ⟨nThr, hopen, hthr'⟩

theorem Recorded.setThreshold (h : Recorded pre s) {caller : Caller} {hPerf : Handle}
    {nThresholdInUS : UInt32} (hs : s.step (.setThreshold caller hPerf nThresholdInUS) = .ok s') :
    Recorded (pre ++ [.setThreshold caller hPerf nThresholdInUS]) s' := by
  -- the record is there
  obtain ⟨record₀, hrec₀, hrecords⟩ : ∃ record₀, s.records.get hPerf = some record₀ ∧
      s'.records = s.records.modify hPerf (·.setThreshold nThresholdInUS.toInt32) := by
    simp only [InProc.step, InProc.setThreshhold] at hs
    cases hget : s.records.get hPerf with
    | none => simp [hget] at hs
    | some record₀ =>
      simp only [hget] at hs
      obtain rfl := Except.ok.inj hs
      exact ⟨record₀, rfl, rfl⟩
  have hopenings : (pre ++ [Op.setThreshold caller hPerf nThresholdInUS]).filterMap Op.opening =
      pre.filterMap Op.opening := by
    simp [Op.opening]
  have hsets : ∀ h, (pre ++ [Op.setThreshold caller hPerf nThresholdInUS]).filterMap (Op.setTo h) =
      pre.filterMap (Op.setTo h) ++ if hPerf = h then [nThresholdInUS] else [] := by
    intro h
    rw [List.filterMap_append]
    by_cases hh : hPerf = h <;> simp [Op.setTo, hh]
  have hnext : s'.records.next = s.records.next := by
    rw [hrecords]
    rfl
  constructor
  case next => rw [hnext, hopenings, h.next]
  case fresh =>
    intro h' hle
    rw [hnext] at hle
    have hne : hPerf ≠ h' := by
      rintro rfl
      exact absurd (Store.lt_next hrec₀) (Nat.not_lt.mpr hle)
    rw [hsets, if_neg hne, List.append_nil]
    exact h.fresh h' hle
  case record =>
    intro h' record' hrec
    rw [hrecords, Store.get_modify] at hrec
    rw [thresholdOf, hsets, openingOf, hopenings]
    by_cases hh : h' = hPerf
    · rw [if_pos hh] at hrec
      obtain ⟨record₁, hrec₁, rfl⟩ := Option.map_eq_some_iff.mp hrec
      obtain ⟨nThr, hopen, -⟩ := h.record hrec₁
      refine ⟨nThr, hopen, ?_⟩
      rw [if_pos hh.symm, List.getLast?_concat]
      rfl
    · rw [if_neg hh] at hrec
      rw [if_neg (Ne.symm hh), List.append_nil]
      exact h.record hrec

theorem run_recorded (hs : InProc.run pID pre = .ok s) : Recorded pre s := by
  induction pre using List.reverseRecOn generalizing s with
  | nil =>
    obtain rfl := Except.ok.inj hs
    exact .init pID
  | append_singleton pre op ih =>
    obtain ⟨s₀, hs₀, hstep⟩ := foldlM_concat_ok.mp hs
    have h := ih hs₀
    cases op with
    | start caller szName nThresholdInUS env => exact h.start (InProc.run_sim hs₀) hstep
    | setThreshold caller hPerf nThresholdInUS => exact h.setThreshold hstep
    | stop caller hPerf env =>
      simp only [InProc.step, InProc.destruct] at hstep
      cases hget : s₀.records.get hPerf with
      | none => simp [hget] at hstep
      | some record =>
        simp only [hget] at hstep
        obtain ⟨m, -, hstep⟩ := bind_eq_ok.mp hstep
        obtain rfl := Except.ok.inj hstep
        refine h.other rfl (fun _ => rfl) rfl ?_
        intro h' record' hrec
        rw [Store.get_free] at hrec
        split at hrec
        · exact absurd hrec (by simp)
        · exact hrec
    | reportProcess caller p env =>
      exact h.onMem (f := (InProc.RDKPerf_ReportProcess · p env)) rfl (fun _ => rfl) hstep
    | reportThread caller tID =>
      exact h.onMem (f := (InProc.RDKPerf_ReportThread · s₀.pID tID)) rfl (fun _ => rfl) hstep
    | closeThread caller tID =>
      exact h.onMem (f := (InProc.RDKPerf_CloseThread · s₀.pID tID)) rfl (fun _ => rfl) hstep
    | closeProcess caller p =>
      exact h.onMem (f := (InProc.RDKPerf_CloseProcess · p)) rfl (fun _ => rfl) hstep

end Recorded

/-! ## A threshold that is positive as an `int32_t` is the number it was -/

section Casts

variable {nUS : UInt32}

theorem toInt_toInt32 (nUS : UInt32) : nUS.toInt32.toInt =
    if 2 * nUS.toNat < 2 ^ 32 then (nUS.toNat : Int) else nUS.toNat - 2 ^ 32 :=
  BitVec.toInt_eq_toNat_cond nUS.toBitVec

theorem toInt_toInt32_of_pos (h : 0 < nUS.toInt32) : nUS.toInt32.toInt = nUS.toNat := by
  have hpos : (0 : Int) < nUS.toInt32.toInt := Int32.lt_iff_toInt_lt.mp h
  have hlt := nUS.toNat_lt
  rw [toInt_toInt32] at hpos ⊢
  split at hpos
  · rw [if_pos (by assumption)]
  · omega

theorem toUInt64_toInt32 (h : 0 < nUS.toInt32) :
    nUS.toInt32.toInt64.toUInt64 = nUS.toUInt64 := by
  have hint := (Int32.toInt_toInt64 nUS.toInt32).trans (toInt_toInt32_of_pos h)
  have hbits : nUS.toInt32.toInt64.toInt = nUS.toInt32.toInt64.toUInt64.toBitVec.toInt := rfl
  have hlt := nUS.toInt32.toInt64.toUInt64.toNat_lt
  rw [hbits, BitVec.toInt_eq_toNat_cond, UInt64.toNat_toBitVec] at hint
  apply UInt64.toNat_inj.mp
  rw [UInt32.toNat_toUInt64]
  split at hint
  · exact Int.ofNat_inj.mp hint
  · omega

end Casts

/-! ## The reports of the two builds -/

/-- A line of a threshold report has been added to the log. -/
def PrintsThreshold (m m' : Mem) : Prop :=
  ∃ lines, m'.log = m.log ++ lines ∧
    ∃ elementName nUS deltaTime stats, .threshold elementName nUS deltaTime stats ∈ lines

/-- The call makes the in-process build report a threshold. -/
def InProcReports (pID : pid_t) (pre : List Op) (op : Op) : Prop :=
  ∃ s s', InProc.run pID pre = .ok s ∧ s.step op = .ok s' ∧ PrintsThreshold s.mem s'.mem

/-- What the call sends makes the service report a threshold, once it has handled what was sent
    before. -/
def RemoteReports (pID : pid_t) (pre : List Op) (op : Op) : Prop :=
  ∃ c c' ds ds' service service', Client.run pID pre = .ok c ∧ c.step op = .ok c' ∧
    ds.map (·.msg) = c.sent ∧ (ds ++ ds').map (·.msg) = c'.sent ∧
    Service.run ds = .ok service ∧ ds'.foldlM Service.step service = .ok service' ∧
    PrintsThreshold service.mem service'.mem

section Reports

variable {pID : pid_t} {ops pre : List Op} {op : Op} {m m' : Mem}

theorem not_printsThreshold (h : m'.log = m.log) : ¬ PrintsThreshold m m' := by
  rintro ⟨lines, hlog, _, _, _, _, hmem⟩
  rw [h, List.self_eq_append_right] at hlog
  rw [hlog] at hmem
  exact absurd hmem (by simp)

theorem printsThreshold_of_begins {elementName : Name} {nUS : Int32} {deltaTime : UInt64}
    {stats : TimingStats}
    (h : m.log ++ [.threshold elementName nUS deltaTime stats] <+: m'.log) :
    PrintsThreshold m m' := by
  obtain ⟨rest, hrest⟩ := h
  refine ⟨.threshold elementName nUS deltaTime stats :: rest, ?_, _, _, _, _, List.mem_cons_self⟩
  rw [← hrest]
  simp

/-! ### The service -/

/-- The message of a call on a record. -/
def CallMessage (msg : PerfMessage) : Prop :=
  msg.type = MessageType.eEntry.code ∨ msg.type = MessageType.eThreshold.code ∨
    msg.type = MessageType.eExit.code

theorem CallMessage.handle_log {msg : PerfMessage} {env : Env} {b : Bool} (hmsg : CallMessage msg)
    (h : Service.handleMessage m msg env = .ok (m', b)) : m'.log = m.log := by
  unfold Service.handleMessage at h
  rcases hmsg with htype | htype | htype
  · rw [htype, MessageType.ofCode_code] at h
    exact Service.handleEntry_log h
  · rw [htype, MessageType.ofCode_code] at h
    exact Service.handleThreshold_log h
  · rw [htype, MessageType.ofCode_code] at h
    exact Service.handleExit_log h

theorem run_callMessages_log {ds : List Service.Delivery} {service service' : Service.State}
    (hds : ∀ d ∈ ds, CallMessage d.msg) (h : ds.foldlM Service.step service = .ok service') :
    service'.mem.log = service.mem.log := by
  refine foldlM_inv (I := fun v : Service.State => v.mem.log = service.mem.log) ?_ rfl h
  intro v d v' hd hv hstep
  obtain ⟨⟨m, answer⟩, hhandle, hstep⟩ := bind_eq_ok.mp hstep
  obtain rfl := Except.ok.inj hstep
  exact ((hds d hd).handle_log hhandle).trans hv

/-- A call on a record sends nothing else. -/
theorem step_sends {n : Nesting} {c c' : Client} (hop : n.Scoped op) (h : c.step op = .ok c') :
    ∃ msgs, c'.sent = c.sent ++ msgs ∧ ∀ msg ∈ msgs, CallMessage msg := by
  rcases (Client.step_spec h).sent with ⟨-, hsent⟩ | ⟨-, msg, hmade, hsent⟩
  · exact ⟨[], by rw [hsent, List.append_nil], fun _ hmsg => absurd hmsg List.not_mem_nil⟩
  · refine ⟨[msg], hsent, fun msg' hmsg' => ?_⟩
    rw [List.mem_singleton.mp hmsg']
    have htype := hmade.type
    cases op with
    | start caller szName nThresholdInUS env => exact Or.inl htype
    | setThreshold caller hPerf nThresholdInUS => exact Or.inr (Or.inl htype)
    | stop caller hPerf env => exact Or.inr (Or.inr htype)
    | reportProcess _ _ _ | reportThread _ _ | closeThread _ _ | closeProcess _ _ => exact hop.elim

/-- **The service reports no threshold.** -/
theorem not_remoteReports {n : Nesting} (hop : n.Scoped op) : ¬ RemoteReports pID pre op := by
  rintro ⟨c, c', ds, ds', service, service', -, hstep, hds, hds', -, hrun, hprints⟩
  obtain ⟨msgs, hsent, hcalls⟩ := step_sends hop hstep
  rw [List.map_append, hds, hsent] at hds'
  have hmsgs := List.append_cancel_left hds'
  refine not_printsThreshold (run_callMessages_log ?_ hrun) hprints
  intro d hd
  apply hcalls
  rw [← hmsgs]
  exact List.mem_map_of_mem hd

/-! ### The in-process build -/

/-- The destructor's test is the trace's. -/
theorem exceeded_iff {s : InProc} {h : Handle} {record : PerfRecord} {env : Env}
    (hR : Recorded pre s) (hrec : s.records.get h = some record) :
    record.exceeded (env.timeStamp - record.startTime) = true ↔ Exceeds pre h env := by
  obtain ⟨nThr, hopen, hthr⟩ := hR.record hrec
  simp only [PerfRecord.exceeded, decide_eq_true_eq]
  cases hof : thresholdOf pre h with
  | none =>
    -- a record is made with a threshold below zero
    rw [hof] at hthr
    refine iff_of_false ?_ ?_
    · rw [hthr]
      exact fun hpos => absurd hpos.1 (by decide)
    · rintro ⟨_, _, nUS, -, hsome, -⟩
      exact absurd (hof.symm.trans hsome) (by simp)
  | some nUS =>
    rw [hof, Option.elim_some] at hthr
    rw [hthr]
    constructor
    · rintro ⟨hpos, hexceeds⟩
      rw [toUInt64_toInt32 hpos] at hexceeds
      exact ⟨record.startTime, nThr, nUS, hopen, hof, hpos, hexceeds⟩
    · rintro ⟨startTime, nThr', nUS', hopen', hof', hpos, hexceeds⟩
      obtain ⟨rfl, -⟩ := Prod.mk.inj (Option.some.inj (hopen.symm.trans hopen'))
      obtain rfl := Option.some.inj (hof.symm.trans hof')
      rw [toUInt64_toInt32 hpos]
      exact ⟨hpos, hexceeds⟩

/-- Only a stop reports. -/
theorem inProcReports_stop {n : Nesting} (hop : n.Scoped op) (h : InProcReports pID pre op) :
    ∃ caller hPerf env, op = .stop caller hPerf env := by
  obtain ⟨s, s', hs, hstep, hprints⟩ := h
  cases op with
  | stop caller hPerf env => exact ⟨caller, hPerf, env, rfl⟩
  | start caller szName nThresholdInUS env =>
    have hS := InProc.run_sim hs
    obtain ⟨⟨m, record⟩, hmade, hstep⟩ := bind_eq_ok.mp hstep
    obtain rfl := Except.ok.inj hstep
    refine absurd hprints (not_printsThreshold ?_)
    rw [construct_eq hS.rep] at hmade
    obtain ⟨⟨m₁, pTree⟩, hget, hmade⟩ := bind_eq_ok.mp hmade
    have hlog := Service.getTree_log hget
    cases pTree with
    | none =>
      obtain ⟨rfl, -⟩ := Prod.mk.inj (Except.ok.inj hmade)
      exact hlog
    | some t =>
      obtain ⟨⟨m₂, record₂, p⟩, hadd, hmade⟩ := bind_eq_ok.mp hmade
      obtain ⟨rfl, -⟩ := Prod.mk.inj (Except.ok.inj hmade)
      exact (PerfTree.addNodeRecord_treesOnly hadd).log.trans hlog
  | setThreshold caller hPerf nThresholdInUS =>
    simp only [InProc.step, InProc.setThreshhold] at hstep
    split at hstep
    · exact absurd hstep (by simp)
    · obtain rfl := Except.ok.inj hstep
      exact absurd hprints (not_printsThreshold rfl)
  | reportProcess caller p env => exact hop.elim
  | reportThread caller tID => exact hop.elim
  | closeThread caller tID => exact hop.elim
  | closeProcess caller p => exact hop.elim

/-- A stop that has an outcome reports exactly if it exceeds. -/
theorem printsThreshold_iff {s s' : InProc} {caller : Caller} {h : Handle} {env : Env}
    (hs : InProc.run pID pre = .ok s) (hstep : s.step (.stop caller h env) = .ok s') :
    PrintsThreshold s.mem s'.mem ↔ Exceeds pre h env := by
  simp only [InProc.step, InProc.destruct] at hstep
  cases hget : s.records.get h with
  | none => simp [hget] at hstep
  | some record =>
    simp only [hget] at hstep
    obtain ⟨m, hdestruct, hout⟩ := bind_eq_ok.mp hstep
    obtain rfl := Except.ok.inj hout
    rw [← exceeded_iff (run_recorded hs) hget]
    rcases PerfRecord.destruct_log hdestruct with ⟨hex, stats, hlog⟩ | ⟨hex, hlog⟩
    · exact iff_of_true (printsThreshold_of_begins hlog) hex
    · exact iff_of_false (not_printsThreshold hlog) (by simp [hex])

theorem inProcReports_iff {s s' : InProc} {caller : Caller} {h : Handle} {env : Env}
    (hs : InProc.run pID pre = .ok s) (hstep : s.step (.stop caller h env) = .ok s') :
    InProcReports pID pre (.stop caller h env) ↔ Exceeds pre h env := by
  rw [← printsThreshold_iff hs hstep]
  constructor
  · rintro ⟨s₁, s₁', hs₁, hstep₁, hprints⟩
    obtain rfl := Except.ok.inj (hs.symm.trans hs₁)
    obtain rfl := Except.ok.inj (hstep.symm.trans hstep₁)
    exact hprints
  · intro hprints
    exact ⟨s, s', hs, hstep, hprints⟩

/-! ### Both builds run -/

/-- On such a trace of calls that have names every system has an outcome. -/
theorem scoped_runs (pID : pid_t)
    (hops : ∀ pre op post, ops = pre ++ op :: post → ∀ n, Nesting.run pre = some n → n.Scoped op)
    (hnames : ∀ op ∈ ops, op.named) (hn : WellNested ops) : (∃ s, InProc.run pID ops = .ok s) ∧
      ∃ c, Client.run pID ops = .ok c ∧ ∀ ds : List Service.Delivery, ds.map (·.msg) = c.sent →
        ∃ service, Service.run ds = .ok service := by
  obtain ⟨n, hn⟩ := hn
  constructor
  · suffices h : ∃ s, InProc.run pID ops = .ok s ∧ Nests n (Ledger.run pID ops) by
      obtain ⟨s, hs, -⟩ := h
      exact ⟨s, hs⟩
    induction ops using List.reverseRecOn generalizing n with
    | nil =>
      obtain rfl := Option.some.inj hn
      exact ⟨_, rfl, .init⟩
    | append_singleton ops op ih =>
      obtain ⟨n₀, hn₀, hstep⟩ := Nesting.run_concat.mp hn
      obtain ⟨hops₀, hop⟩ := forall_places_concat.mp hops
      obtain ⟨hnames₀, hname⟩ := List.forall_mem_append.mp hnames
      obtain ⟨s₀, hs₀, hN₀⟩ := ih hops₀ hnames₀ n₀ hn₀
      have hS₀ := InProc.run_sim hs₀
      obtain ⟨hlegal, hN⟩ := hN₀.inScope hS₀ (hop n₀ hn₀) (hname op (List.mem_singleton_self op))
        hstep
      obtain ⟨s, hs, -⟩ := hS₀.step_ok hlegal
      rw [Ledger.run_concat]
      exact ⟨s, foldlM_concat_ok.mpr ⟨s₀, hs₀, hs⟩, hN⟩
  · obtain ⟨_, c, w, -, hc, -, -, -, hds⟩ := run_mirrors pID hops hnames hn
    refine ⟨c, hc, ?_⟩
    intro ds hsent
    obtain ⟨answers, hrun⟩ := hds ds hsent
    obtain ⟨service, hservice, -⟩ := Service.run_sim_back hrun
    exact ⟨service, hservice⟩

theorem WellNested.left {post : List Op} (hn : WellNested (pre ++ post)) : WellNested pre := by
  obtain ⟨n, hn⟩ := hn
  rw [Nesting.run, List.foldlM_append] at hn
  obtain ⟨n₀, hn₀, -⟩ := Option.bind_eq_some_iff.mp hn
  exact ⟨n₀, hn₀⟩

theorem scoped_at {post : List Op} (hn : WellNested (pre ++ op :: post))
    (hops : ∀ pre' op' post', pre ++ op :: post = pre' ++ op' :: post' →
      ∀ n, Nesting.run pre' = some n → n.Scoped op') : ∃ n : Nesting, n.Scoped op := by
  obtain ⟨n₀, hn₀⟩ := hn.left
  exact ⟨n₀, hops pre op post rfl n₀ hn₀⟩

/-- **The two builds report the same calls exactly when no call exceeds its threshold**, of those that
    are reached: neither build survives a start without a name. -/
theorem threshold_reports_agree_iff (pID : pid_t) (ops : List Op)
    (hops : ∀ pre op post, ops = pre ++ op :: post → ∀ n, Nesting.run pre = some n → n.Scoped op)
    (hn : WellNested ops) :
    (∀ pre op post, ops = pre ++ op :: post →
        (InProcReports pID pre op ↔ RemoteReports pID pre op)) ↔
      ∀ pre caller h env post, ops = pre ++ .stop caller h env :: post →
        (∀ op ∈ pre, op.named) → ¬ Exceeds pre h env := by
  constructor
  · intro hagree pre caller h env post hsplit hnames hexceeds
    obtain ⟨n, hop⟩ := scoped_at (hsplit ▸ hn) (hsplit ▸ hops)
    -- up to its stop the run goes through, and reports what exceeds
    have hsplit' : ops = (pre ++ [.stop caller h env]) ++ post := by simp [hsplit]
    have hscoped : ∀ pre' op post', pre ++ [Op.stop caller h env] = pre' ++ op :: post' →
        ∀ n, Nesting.run pre' = some n → n.Scoped op :=
      fun pre' op post' hpre => hops pre' op (post' ++ post) (by rw [hsplit', hpre]; simp)
    obtain ⟨⟨s, hs⟩, -⟩ := scoped_runs pID hscoped
      (List.forall_mem_append.mpr ⟨hnames, by simp [Op.named]⟩) (WellNested.left (hsplit' ▸ hn))
    obtain ⟨s₁, hs₁, hstep⟩ := foldlM_concat_ok.mp hs
    have hreports := (inProcReports_iff hs₁ hstep).mpr hexceeds
    exact not_remoteReports hop ((hagree pre _ post hsplit).mp hreports)
  · intro hnone pre op post hsplit
    obtain ⟨n, hop⟩ := scoped_at (hsplit ▸ hn) (hsplit ▸ hops)
    refine iff_of_false (fun hreports => ?_) (not_remoteReports hop)
    obtain ⟨caller, h, env, rfl⟩ := inProcReports_stop hop hreports
    obtain ⟨s, s', hs, hstep, -⟩ := id hreports
    refine hnone pre caller h env post hsplit (fun op hmem => ?_)
      ((inProcReports_iff hs hstep).mp hreports)
    obtain ⟨before, after, rfl⟩ := List.append_of_mem hmem
    exact (InProc.run_ok_iff.mp ⟨s, hs⟩ before op after rfl).named

/-- One call with a threshold of five, given another one while it is open. -/
def thresholdCall (elapsed : UInt64) : List Op :=
  [.start threadA nameF (some 5) {}, .setThreshold threadB 0 7,
    .stop threadA 0 { timeStamp := elapsed }]

theorem thresholdCall_scoped (elapsed : UInt64) : ∀ pre op post,
    thresholdCall elapsed = pre ++ op :: post → ∀ n, Nesting.run pre = some n → n.Scoped op := by
  rw [thresholdCall, forall_places_cons, forall_places_cons, forall_places_cons]
  refine ⟨fun _ _ => trivial, ?_, fun _ _ => trivial, forall_places_nil⟩
  intro n hn
  obtain rfl := Option.some.inj hn
  exact ⟨1, List.mem_singleton_self 0⟩

theorem thresholdCall_small (elapsed : UInt64) : ∀ op ∈ thresholdCall elapsed,
    ∀ nUS, op.threshold = some nUS → nUS.toNat < 2 ^ 31 := by
  intro op hop nUS hthr
  simp only [thresholdCall, List.mem_cons, List.not_mem_nil, or_false] at hop
  rcases hop with rfl | rfl | rfl
  · obtain rfl := Option.some.inj hthr
    decide
  · obtain rfl := Option.some.inj hthr
    decide
  · exact absurd hthr (by simp [Op.threshold])

theorem shortCall_agrees :
    (∀ pre op post, thresholdCall 7 = pre ++ op :: post →
        (InProcReports 42 pre op ↔ RemoteReports 42 pre op)) ↔
      ∀ pre caller h env post, thresholdCall 7 = pre ++ .stop caller h env :: post →
        (∀ op ∈ pre, op.named) → ¬ Exceeds pre h env :=
  threshold_reports_agree_iff 42 (thresholdCall 7) (thresholdCall_scoped 7) ⟨_, rfl⟩

/-- A call that takes a microsecond longer than it may. -/
theorem longCall_disagrees : ¬ ∀ (pID : pid_t) (ops : List Op),
    (∀ pre op post, ops = pre ++ op :: post → ∀ n, Nesting.run pre = some n → n.Scoped op) →
      WellNested ops → (∀ op ∈ ops, ∀ nUS, op.threshold = some nUS → nUS.toNat < 2 ^ 31) →
        ∀ pre op post, ops = pre ++ op :: post →
          (InProcReports pID pre op ↔ RemoteReports pID pre op) := by
  intro hall
  let pre : List Op := [.start threadA nameF (some 5) {}, .setThreshold threadB 0 7]
  have hscoped := thresholdCall_scoped 8
  have hnest : WellNested (thresholdCall 8) := ⟨_, rfl⟩
  have hagree := hall 42 (thresholdCall 8) hscoped hnest (thresholdCall_small 8) pre _ [] rfl
  obtain ⟨⟨s, hs⟩, -⟩ := scoped_runs 42 hscoped (by decide) hnest
  obtain ⟨s₁, hs₁, hstep⟩ := foldlM_concat_ok.mp (show (pre ++ [_]).foldlM _ _ = _ from hs)
  have hreports := (inProcReports_iff hs₁ hstep).mpr
    ⟨0, some 5, 7, rfl, rfl, by decide, by decide⟩
  have hstop : Nesting.init.Scoped (.stop threadA 0 { timeStamp := 8 }) := trivial
  exact not_remoteReports hstop (hagree.mp hreports)

end Reports
end RdkPerf

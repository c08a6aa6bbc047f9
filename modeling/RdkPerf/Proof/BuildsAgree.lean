import RdkPerf.Proof.Nested
import RdkPerf.Proof.RoundTrip

/-!
# The remote build refines the in-process build

Three systems read one trace: the in-process build (with every name cut to what a message carries),
the client of the remote build, which answers handles and sends messages, and the service, which
handles them. The ledger of the in-process run is the reference for all three. `Mirrors` relates
the other two to it: a client object knows the name and the start of the call its handle opened,
and the service's tree of a thread is the ledger's, but for thresholds.

The step that carries the proof is the stop. The in-process build goes to the node its record
holds; the service has a name only, and looks at the top of the stack. That they find the same
node is `Nests.stop_top`: in a well-nested trace the record's frame is on top.
-/

namespace RdkPerf

open Lib

/-! ## Trees without thresholds -/

/-- What is measured: the thresholds of the nodes are set by messages only. -/
def CallTree.measured (ct : CallTree) : CallTree :=
  { ct with node := fun π => (ct.node π).map (·.setThreshold (-1)) }

section Measured

variable (ct : CallTree) (π : Path)

theorem CallTree.measured_init (tID : pthread_t) (n : Name) :
    (CallTree.init tID n).measured = .init tID n := by
  refine CallTree.ext rfl rfl (funext fun σ => ?_) rfl rfl rfl
  show Option.map _ (if σ = [] then some NodeData.root else none) = if σ = [] then _ else _
  split <;> rfl

theorem CallTree.measured_enter (name : Name) :
    (ct.enter name).measured = ct.measured.enter name := by
  refine CallTree.ext rfl rfl (funext fun σ => ?_) rfl rfl rfl
  show Option.map _ (if σ = name :: ct.active then _ else ct.node σ) =
    if σ = name :: ct.active then _ else Option.map _ (ct.node σ)
  split
  · cases h : ct.node σ with
    | none => simp only [CallTree.measured, h]; rfl
    | some d => simp only [CallTree.measured, h]; rfl
  · rfl

theorem CallTree.measured_setThreshold (nUS : Int32) :
    (ct.onNode π (·.setThreshold nUS)).measured = ct.measured := by
  refine CallTree.ext rfl rfl (funext fun σ => ?_) rfl rfl rfl
  show Option.map _ (if σ = π then (ct.node σ).map _ else ct.node σ) = Option.map _ (ct.node σ)
  split
  · rw [Option.map_map]
    rfl
  · rfl

theorem CallTree.measured_stop (d : UInt64) : (ct.stop π d).measured = ct.measured.stop π d := by
  have hclose : ∀ ct : CallTree, (ct.close π).measured = ct.measured.close π := by
    intro ct
    unfold CallTree.close
    show CallTree.measured (if π ≠ [] ∧ π = ct.active then _ else _) =
      if π ≠ [] ∧ π = ct.active then _ else _
    split <;> rfl
  unfold CallTree.stop
  rw [hclose]
  refine congrArg (CallTree.close · π) (CallTree.ext rfl rfl (funext fun σ => ?_) rfl rfl rfl)
  show Option.map _ (if σ = π then (ct.node σ).map _ else ct.node σ) =
    if σ = π then (Option.map _ (ct.node σ)).map _ else Option.map _ (ct.node σ)
  split
  · rw [Option.map_map, Option.map_map]
    rfl
  · rfl

theorem ThreadLog.measured_callTree (l : ThreadLog) : l.callTree.measured = l.callTree := by
  refine CallTree.ext rfl rfl (funext fun σ => ?_) rfl rfl rfl
  show Option.map _ (l.callTree.node σ) = l.callTree.node σ
  rw [callTree_node]
  split <;> rfl

end Measured

/-! ## The client sends one message a call -/

theorem PerfMsgQueue.sendMessage_refused {self : Sender} {type : MessageType}
    {szName : Option CString} {nTimeStamp : UInt64} {nUS : Int32}
    (h : sendMessage self type szName nTimeStamp nUS = .ok none) :
    type = .eNoMessage ∨ type = .eMaxType := by
  cases type with
  | eNoMessage => exact Or.inl rfl
  | eMaxType => exact Or.inr rfl
  | eEntry | eExit | eThreshold => cases szName <;> simp [sendMessage, copyName] at h
  | eReportThread | eReportProcess | eCloseThread | eCloseProcess | eExitQueue =>
    simp [sendMessage] at h

/-- A message is of the type it is sent as. -/
theorem PerfMsgQueue.sent_type {self : Sender} {type : MessageType} {szName : Option CString}
    {nTimeStamp : UInt64} {nUS : Int32} {msg : PerfMessage}
    (h : sendMessage self type szName nTimeStamp nUS = .ok (some msg)) : msg.type = type.code := by
  obtain ⟨hno, hmax, hname⟩ := sendMessage_accepts_iff.mp ⟨msg, h⟩
  cases type with
  | eNoMessage => exact absurd rfl hno
  | eMaxType => exact absurd rfl hmax
  | eEntry =>
    cases szName with
    | none => exact absurd rfl (hname rfl).1
    | some szName => exact (sent_entry h).1
  | eExit =>
    cases szName with
    | none => exact absurd rfl (hname rfl).2.1
    | some szName => exact (sent_exit h).1
  | eThreshold =>
    cases szName with
    | none => exact absurd rfl (hname rfl).2.2
    | some szName => exact (sent_threshold h).1
  | eReportThread => exact (sent_reportThread h).1
  | eReportProcess => exact (sent_reportProcess h).1
  | eCloseThread => exact (sent_closeThread h).1
  | eCloseProcess => exact (sent_closeProcess h).1
  | eExitQueue =>
    obtain rfl : blank .eExitQueue = msg := Option.some.inj (Except.ok.inj h)
    exact type_blank

/-- A message is sent if the queue is there. -/
theorem Client.sendMessage_ok {c c' : Client} {caller : Caller} {type : MessageType}
    {szName : Option CString} {nTimeStamp : UInt64} {nUS : Int32}
    (h : c.sendMessage caller type szName nTimeStamp nUS = .ok c')
    (htype : type ≠ .eNoMessage ∧ type ≠ .eMaxType) :
    (c.queue = false ∧ c' = c) ∨ (c.queue = true ∧ ∃ msg,
      PerfMsgQueue.sendMessage ⟨caller, c.pID⟩ type szName nTimeStamp nUS = .ok (some msg) ∧
        c' = { c with sent := c.sent ++ [msg] }) := by
  unfold Client.sendMessage at h
  split at h
  · next hqueue =>
    obtain ⟨msg, hmsg, h⟩ := bind_eq_ok.mp h
    obtain rfl := Except.ok.inj h
    cases msg with
    | none =>
      rcases PerfMsgQueue.sendMessage_refused hmsg with hno | hmax
      · exact absurd hno htype.1
      · exact absurd hmax htype.2
    | some msg => exact Or.inr ⟨hqueue, msg, hmsg, rfl⟩
  · next hqueue =>
    obtain rfl := Except.ok.inj h
    exact Or.inl ⟨Bool.eq_false_iff.mpr hqueue, rfl⟩

/-- The type of the message a call sends. -/
def Op.messageType : Op → MessageType
  | .start _ _ _ _ => .eEntry
  | .stop _ _ _ => .eExit
  | .setThreshold _ _ _ => .eThreshold
  | .reportProcess _ _ _ => .eReportProcess
  | .reportThread _ _ => .eReportThread
  | .closeThread _ _ => .eCloseThread
  | .closeProcess _ _ => .eCloseProcess

/-- What `SendMessage` makes for a call. The name is that of the object, and so for a start the one
    it is given. -/
def Op.Makes (pID : pid_t) (op : Op) (msg : PerfMessage) : Prop :=
  ∃ szName nTimeStamp nUS, PerfMsgQueue.sendMessage ⟨op.caller, pID⟩ op.messageType szName
      nTimeStamp nUS = .ok (some msg) ∧
    ∀ caller name nThr env, op = .start caller name nThr env → szName = some name

theorem Op.Makes.type {pID : pid_t} {op : Op} {msg : PerfMessage} (h : op.Makes pID msg) :
    msg.type = op.messageType.code := by
  obtain ⟨szName, nTimeStamp, nUS, hmsg, -⟩ := h
  exact PerfMsgQueue.sent_type hmsg

/-- A call is one message, if there is a queue to send it to; the first start opens it. -/
structure Client.Steps (c : Client) (op : Op) (c' : Client) : Prop where
  pID : c'.pID = c.pID
  queue : c'.queue = (op.isStart || c.queue)
  sent : (c'.queue = false ∧ c'.sent = c.sent) ∨
    (c'.queue = true ∧ ∃ msg, op.Makes c.pID msg ∧ c'.sent = c.sent ++ [msg])

/-- **What a call does to a client.** -/
theorem Client.step_spec {c c' : Client} {op : Op} (h : c.step op = .ok c') : c.Steps op c' := by
  have hsend : ∀ {c₀ : Client} {szName : Option CString} {nTimeStamp : UInt64} {nUS : Int32},
      c₀.sendMessage op.caller op.messageType szName nTimeStamp nUS = .ok c' → c₀.pID = c.pID →
        c₀.sent = c.sent → c₀.queue = (op.isStart || c.queue) →
        (∀ caller name nThr env, op = .start caller name nThr env → szName = some name) →
          c.Steps op c' := by
    intro c₀ szName nTimeStamp nUS h hpID hsent hqueue hname
    have htype : op.messageType ≠ .eNoMessage ∧ op.messageType ≠ .eMaxType := by
      cases op <;> simp [Op.messageType]
    rcases Client.sendMessage_ok h htype with ⟨hno, rfl⟩ | ⟨hopen, msg, hmsg, rfl⟩
    · exact ⟨hpID, hqueue, Or.inl ⟨hno, hsent⟩⟩
    · exact ⟨hpID, hqueue,
        Or.inr ⟨hopen, msg, ⟨_, _, _, hpID ▸ hmsg, hname⟩, by rw [← hsent]⟩⟩
  cases op with
  | start caller szName nThresholdInUS env =>
    simp only [step, construct] at h
    exact hsend h rfl rfl rfl fun _ _ _ _ heq => congrArg some (Op.start.inj heq).2.1
  | stop caller hPerf env =>
    simp only [step, destruct] at h
    split at h
    · exact absurd h (by simp)
    · exact hsend h rfl rfl rfl (by simp)
  | setThreshold caller hPerf nThresholdInUS =>
    simp only [step, setThreshhold] at h
    split at h
    · exact absurd h (by simp)
    · exact hsend h rfl rfl rfl (by simp)
  | reportProcess caller p env => exact hsend h rfl rfl rfl (by simp)
  | reportThread caller tID => exact hsend h rfl rfl rfl (by simp)
  | closeThread caller tID => exact hsend h rfl rfl rfl (by simp)
  | closeProcess caller p => exact hsend h rfl rfl rfl (by simp)

/-- A call sends one message at most. -/
theorem Client.step_made {c c' : Client} {op : Op} (h : c.step op = .ok c') :
    ∃ msg : Option PerfMessage, c'.sent = c.sent ++ msg.toList ∧
      ∀ m ∈ msg.toList, op.Makes c.pID m := by
  rcases (step_spec h).sent with ⟨-, hsent⟩ | ⟨-, msg, hmade, hsent⟩
  · exact ⟨none, by rw [hsent, Option.toList_none, List.append_nil], by simp⟩
  · exact ⟨some msg, hsent, by simpa using hmade⟩

/-! ## The client and the service follow the ledger -/

structure Mirrors (pID : pid_t) (L : Ledger) (c : Client) (w : World) : Prop where
  self : c.pID = pID
  queue : L.next ≠ 0 → c.queue = true
  next : c.objects.next = L.next
  object : ∀ {tID h calls}, OpenCall L tID h calls → ∃ object, c.objects.get h = some object ∧
    cutName object.szName.bytes = Path.label (pathOf calls) ∧ object.startTime = startOf calls
  tree : ∀ tID, (w.tree pID tID).map CallTree.measured = (L.thread tID).map ThreadLog.callTree

namespace Mirrors

variable {pID : pid_t} {s : InProc} {L : Ledger} {c : Client} {w : World} {n n' : Nesting}

theorem init (pID : pid_t) : Mirrors pID .init (.init pID) .init where
  self := rfl
  queue h := absurd rfl h
  next := rfl
  object := by
    rintro tID h calls ⟨l, hl, -⟩
    exact absurd hl (by simp [Ledger.init])
  tree _ := rfl

theorem start (hS : Sim pID s L) (hM : Mirrors pID L c w) (caller : Caller) {szName : CString}
    (hname : szName.bytes ≠ []) (nThresholdInUS : Option UInt32) (env : Env) :
    ∃ c' msg w', c.step (.start caller szName nThresholdInUS env) = .ok c' ∧
      c'.sent = c.sent ++ [msg] ∧ w.handle msg = .ok (w', true) ∧
      Mirrors pID (L.step pID (Op.cut (.start caller szName nThresholdInUS env))) c' w' := by
  let object : RDKPerfRemote := ⟨szName, nThresholdInUS.getD 0, env.timeStamp⟩
  obtain ⟨msg, hmsg⟩ : ∃ msg, PerfMsgQueue.sendMessage ⟨caller, c.pID⟩ .eEntry (some szName)
      env.timeStamp (nThresholdInUS.getD 0).toInt32 = .ok (some msg) :=
    PerfMsgQueue.sendMessage_accepts_iff.mpr ⟨by simp, by simp, by simp⟩
  obtain ⟨htype, hentry⟩ := PerfMsgQueue.sent_entry hmsg
  let l := (L.thread caller.tid).getD (.init caller.tid caller.threadName.bytes)
  -- the tree the entry goes to is the log's
  obtain ⟨ct, hct, hl⟩ : ∃ ct, w.treeOrInit pID caller.tid
      (fitThreadName (some caller.threadName.bytes)) = .ok ct ∧ ct.measured = l.callTree := by
    have htree := hM.tree caller.tid
    have hshort := caller.threadName.short
    have hfit : fitThreadName (some caller.threadName.bytes) = .ok caller.threadName.bytes := by
      rw [fitThreadName]
      exact if_pos (Nat.le_of_lt hshort)
    cases hth : L.thread caller.tid with
    | none =>
      rw [hth] at htree
      have hw : w.tree pID caller.tid = none := Option.map_eq_none_iff.mp htree
      refine ⟨.init caller.tid caller.threadName.bytes, ?_, ?_⟩
      · rw [World.treeOrInit, hw, hfit]
        rfl
      · simp only [l, hth, Option.getD_none, CallTree.measured_init, ThreadLog.callTree_init]
    | some l₀ =>
      rw [hth] at htree
      obtain ⟨ct, hw, hmeas⟩ := Option.map_eq_some_iff.mp htree
      refine ⟨ct, by rw [World.treeOrInit, hw], ?_⟩
      simp only [l, hth, Option.getD_some, hmeas]
  let ct₁ := ct.enter (cutName szName.bytes)
  let thr := (nThresholdInUS.getD 0).toInt32
  let ct₂ := if thr > 0 then ct₁.onNode ct₁.active (·.setThreshold thr) else ct₁
  have hct₂ : ct₂.measured =
      (l.enter (cutName szName.bytes) L.next env.timeStamp).callTree := by
    have hct₁ : ct₂.measured = ct₁.measured := by
      simp only [ct₂]
      split
      · exact CallTree.measured_setThreshold _ _ _
      · rfl
    rw [hct₁, CallTree.measured_enter, hl, ThreadLog.callTree_enter]
  let c' : Client :=
    { c with queue := true, objects := c.objects.alloc object, sent := c.sent ++ [msg] }
  refine ⟨c', msg, (w.register pID).set pID caller.tid (some ct₂), ?_, rfl, ?_,
    hM.self, fun _ => rfl, congrArg (· + 1) hM.next, ?_, ?_⟩
  · simp only [Client.step, Client.construct, Client.sendMessage, if_true, hmsg, ok_bind,
      pure_eq_ok, Option.toList_some, c', object]
  · rw [World.handle, htype, MessageType.ofCode_code]
    simp only [hentry, World.handleEntry, hM.self, hct, ok_bind, if_neg (cutName_eq_nil.not.mpr hname)]
    rfl
  · intro tID h calls ho
    have hget : c'.objects.get h = if h = L.next then some object else c.objects.get h := by
      show (c.objects.alloc object).get h = _
      rw [Store.get_alloc, hM.next]
    rcases hS.openCall_of_step ho with ⟨hold, -⟩ | ⟨_, _, _, _, heq, rfl, rfl, rfl⟩
    · rw [hget, if_neg (Nat.ne_of_lt (hS.lt_next hold))]
      exact hM.object hold
    · obtain ⟨rfl, rfl, rfl, rfl⟩ := Op.start.inj heq
      exact ⟨object, by rw [hget, if_pos rfl], rfl, rfl⟩
  · intro tID
    rw [World.set_tree]
    show _ = Option.map _ (if tID = caller.tid then some _ else L.thread tID)
    by_cases htid : tID = caller.tid
    · rw [if_pos ⟨rfl, htid⟩, if_pos htid, Option.map_some, Option.map_some]
      exact congrArg some hct₂
    · rw [if_neg (fun hk => htid hk.2), if_neg htid]
      exact hM.tree tID

theorem stop (hS : Sim pID s L) (hN : Nests n L) (hM : Mirrors pID L c w) {caller : Caller}
    {h : Handle} {rest : List Handle} (hh : n.handles caller.tid = h :: rest) (env : Env) :
    ∃ c' msg w', c.step (.stop caller h env) = .ok c' ∧ c'.sent = c.sent ++ [msg] ∧
      w.handle msg = .ok (w', true) ∧ Mirrors pID (L.step pID (.stop caller h env)) c' w' := by
  obtain ⟨l, f, fs, hl, hfs, htrail, hrel, -⟩ := hN.stop_top hh
  have ho : OpenCall L caller.tid h (Frames.items l.frames) := ⟨l, hl, htrail⟩
  obtain ⟨object, hobj, hname, hstart⟩ := hM.object ho
  obtain ⟨msg, hmsg⟩ : ∃ msg, PerfMsgQueue.sendMessage ⟨caller, c.pID⟩ .eExit
      (some object.szName) (env.timeStamp - object.startTime) (-1) = .ok (some msg) :=
    PerfMsgQueue.sendMessage_accepts_iff.mpr ⟨by simp, by simp, by simp⟩
  obtain ⟨htype, hexit⟩ := PerfMsgQueue.sent_exit hmsg
  have hqueue : c.queue = true := hM.queue (Nat.ne_of_gt (Nat.zero_lt_of_lt (hS.lt_next ho)))
  have htree := hM.tree caller.tid
  rw [hl] at htree
  obtain ⟨ct, hct, hmeas⟩ := Option.map_eq_some_iff.mp htree
  have hactive : ct.active = pathOf (Frames.items l.frames) := congrArg CallTree.active hmeas
  let c' : Client := { c with objects := c.objects.free h, sent := c.sent ++ [msg] }
  let ct' := ct.stop ct.active (env.timeStamp - object.startTime)
  have hct' : ct'.measured = (l.stop h env.timeStamp).callTree := by
    rw [CallTree.measured_stop, hmeas, hactive, hstart, ThreadLog.callTree_stop htrail]
  refine ⟨c', msg, w.set pID caller.tid (some ct'), ?_, rfl, ?_, hM.self, fun _ => hqueue, hM.next,
    ?_, ?_⟩
  · simp only [Client.step, Client.destruct, hobj, Client.sendMessage, hqueue, if_true, hmsg,
      ok_bind, pure_eq_ok, Option.toList_some, c']
  · rw [World.handle, htype, MessageType.ofCode_code]
    simp only [hexit, World.handleExit, hM.self, hct]
    rw [if_pos (by rw [hname, hactive])]
  · intro tID h' calls' ho'
    rcases hS.openCall_of_step ho' with ⟨hold, hspare⟩ | ⟨_, _, _, _, heq, -⟩
    · have hne : h' ≠ h := by
        rintro rfl
        exact hspare caller env rfl
      show ∃ object, (c.objects.free h).get h' = some object ∧ _
      rw [Store.get_free, if_neg hne]
      exact hM.object hold
    · exact absurd heq (by simp)
  · intro tID
    rw [World.set_tree, hS.stop_thread caller env ho]
    by_cases htid : tID = caller.tid
    · rw [if_pos ⟨rfl, htid⟩, if_pos htid, hl, Option.map_some, Option.map_some, Option.map_some,
        hct']
    · rw [if_neg (fun hk => htid hk.2), if_neg htid]
      exact hM.tree tID

/-- A threshold is one message too, in which it arrives as zero: the service refuses it. -/
theorem setThreshold (hM : Mirrors pID L c w) {h : Handle} {tID : pthread_t} {calls : List Started}
    (hS : Sim pID s L) (ho : OpenCall L tID h calls) (caller : Caller) (nThresholdInUS : UInt32) :
    ∃ c' msg, c.step (.setThreshold caller h nThresholdInUS) = .ok c' ∧ c'.sent = c.sent ++ [msg] ∧
      w.handle msg = .ok (w, false) ∧
      Mirrors pID (L.step pID (.setThreshold caller h nThresholdInUS)) c' w := by
  obtain ⟨object, hobj, -, -⟩ := hM.object ho
  obtain ⟨msg, hmsg⟩ : ∃ msg, PerfMsgQueue.sendMessage ⟨caller, c.pID⟩ .eThreshold
      (some object.szName) 0 nThresholdInUS.toInt32 = .ok (some msg) :=
    PerfMsgQueue.sendMessage_accepts_iff.mpr ⟨by simp, by simp, by simp⟩
  obtain ⟨htype, hthreshold⟩ := PerfMsgQueue.sent_threshold hmsg
  have hqueue : c.queue = true := hM.queue (Nat.ne_of_gt (Nat.zero_lt_of_lt (hS.lt_next ho)))
  let set (this : RDKPerfRemote) : RDKPerfRemote := { this with nThresholdInUS := nThresholdInUS }
  let c' : Client := { c with objects := c.objects.modify h set, sent := c.sent ++ [msg] }
  refine ⟨c', msg, ?_, rfl, ?_, hM.self, hM.queue, hM.next, ?_, hM.tree⟩
  · simp only [Client.step, Client.setThreshhold, hobj, Client.sendMessage, hqueue, if_true, hmsg,
      ok_bind, pure_eq_ok, Option.toList_some, c', set]
  · rw [World.handle, htype, MessageType.ofCode_code]
    simp only [hthreshold, World.handleThreshold]
    cases w.tree c.pID caller.tid <;> rfl
  · intro tID' h' calls' ho'
    obtain ⟨object', hobj', hname, hstart⟩ := hM.object ho'
    have hget : c'.objects.get h' =
        if h' = h then (c.objects.get h').map set else c.objects.get h' :=
      Store.get_modify c.objects h set h'
    rw [hget, hobj']
    split
    · exact ⟨set object', rfl, hname, hstart⟩
    · exact ⟨object', rfl, hname, hstart⟩

/-- One call is one message, and the service makes of it what the in-process build does. -/
theorem step (hS : Sim pID s L) (hN : Nests n L) (hM : Mirrors pID L c w) {op : Op}
    (hop : n.Scoped op) (hname : op.named) (hn : n.step op = some n') :
    ∃ c' msg w' answer, c.step op = .ok c' ∧
      c'.sent = c.sent ++ [msg] ∧ w.handle msg = .ok (w', answer) ∧
      Mirrors pID (L.step pID op.cut) c' w' := by
  cases op with
  | start caller szName nThresholdInUS env =>
    have hne : szName.bytes ≠ [] := of_decide_eq_true hname
    obtain ⟨c', msg, w', hc, hsent, hw, hM'⟩ := start hS hM caller hne nThresholdInUS env
    exact ⟨c', msg, w', true, hc, hsent, hw, hM'⟩
  | stop caller h env =>
    obtain ⟨rest, hh, -⟩ := Nesting.step_stop hn
    obtain ⟨c', msg, w', hc, hsent, hw, hM'⟩ := stop hS hN hM hh env
    exact ⟨c', msg, w', true, hc, hsent, hw, hM'⟩
  | setThreshold caller h nThresholdInUS =>
    obtain ⟨tID, hh⟩ := hop
    obtain ⟨calls, ho⟩ := hN.openCall hh
    obtain ⟨c', msg, hc, hsent, hw, hM'⟩ := hM.setThreshold hS ho caller nThresholdInUS
    exact ⟨c', msg, w, false, hc, hsent, hw, hM'⟩
  | reportProcess caller p env => exact hop.elim
  | reportThread caller tID => exact hop.elim
  | closeThread caller tID => exact hop.elim
  | closeProcess caller p => exact hop.elim

end Mirrors

/-- The three systems on one trace: whatever the service's clocks show, it ends in a world that
    mirrors the ledger of the in-process run. -/
theorem run_mirrors (pID : pid_t) {ops : List Op} {n : Nesting}
    (hops : ∀ pre op post, ops = pre ++ op :: post →
      ∀ n, Nesting.run pre = some n → n.Scoped op)
    (hnames : ∀ op ∈ ops, op.named) (hn : Nesting.run ops = some n) :
    ∃ s c w, InProc.run pID (ops.map Op.cut) = .ok s ∧ Client.run pID ops = .ok c ∧
      Sim pID s (Ledger.run pID (ops.map Op.cut)) ∧ Nests n (Ledger.run pID (ops.map Op.cut)) ∧
      Mirrors pID (Ledger.run pID (ops.map Op.cut)) c w ∧
      ∀ ds : List Service.Delivery, ds.map (·.msg) = c.sent →
        ∃ answers, ds.foldlM World.step (.init, []) = .ok (w, answers) := by
  induction ops using List.reverseRecOn generalizing n with
  | nil =>
    obtain rfl := Option.some.inj hn
    refine ⟨_, _, .init, rfl, rfl, .init pID, .init, .init pID, fun ds hds => ⟨[], ?_⟩⟩
    rw [List.map_eq_nil_iff.mp hds]
    rfl
  | append_singleton ops op ih =>
    obtain ⟨n₀, hn₀, hstep⟩ := Nesting.run_concat.mp hn
    obtain ⟨hops₀, hop⟩ := forall_places_concat.mp hops
    have hscoped := hop n₀ hn₀
    obtain ⟨hnames₀, hname⟩ := List.forall_mem_append.mp hnames
    rw [List.forall_mem_singleton] at hname
    obtain ⟨s₀, c₀, w₀, hs₀, hc₀, hS₀, hN₀, hM₀, hds₀⟩ := ih hops₀ hnames₀ hn₀
    rw [List.map_append, List.map_singleton, Ledger.run_concat]
    obtain ⟨hlegal, hN⟩ := hN₀.inScope hS₀ (Nesting.scoped_cut hscoped)
      (Op.named_cut.mpr hname) ((Nesting.step_cut n₀ op).trans hstep)
    obtain ⟨s, hs, hS⟩ := hS₀.step_ok hlegal
    obtain ⟨c, msg, w, answer, hc, hsent, hw, hM⟩ := hM₀.step hS₀ hN₀ hscoped hname hstep
    refine ⟨s, c, w, foldlM_concat_ok.mpr ⟨s₀, hs₀, hs⟩, foldlM_concat_ok.mpr ⟨c₀, hc₀, hc⟩, hS, hN,
      hM, fun ds hds => ?_⟩
    -- the last delivery is the message of the last call
    rw [hsent] at hds
    obtain ⟨ds₁, ds₂, rfl, hds₁, hds₂⟩ := List.map_eq_append_iff.mp hds
    obtain ⟨d, ds₃, rfl, hd, hds₃⟩ := List.map_eq_cons_iff.mp hds₂
    rw [List.map_eq_nil_iff.mp hds₃]
    obtain ⟨answers, hrun⟩ := hds₀ ds₁ hds₁
    refine ⟨answers ++ [(d, answer)], foldlM_concat_ok.mpr ⟨(w₀, answers), hrun, ?_⟩⟩
    rw [World.step, hd, hw]
    rfl

/-- Where the trees are the ledger's, they are those of the in-process build. -/
theorem Sim.view_measured {pID : pid_t} {s : InProc} {L : Ledger} {m : Mem} {w : World}
    (hS : Sim pID s L) (hrep : Rep m w)
    (htree : ∀ tID, (w.tree pID tID).map CallTree.measured = (L.thread tID).map ThreadLog.callTree)
    (tID : pthread_t) :
    (m.view pID tID).map CallTree.measured = (s.mem.view pID tID).map CallTree.measured := by
  have hself : s.mem.view pID tID = (L.thread tID).map ThreadLog.callTree := by
    have hview := hS.rep.view s.pID tID
    rw [Ledger.world_tree_self, hS.pID] at hview
    exact hview
  rw [hrep.view, htree, hself, Option.map_map]
  exact Option.map_congr fun l _ => (ThreadLog.measured_callTree l).symm

end RdkPerf

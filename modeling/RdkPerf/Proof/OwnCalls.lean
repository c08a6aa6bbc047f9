import RdkPerf.Proof.Terminated

/-!
# The builds agree through reports and closes

A process measures, sets thresholds, reports and closes, and what it reports or closes is its own:
itself, or the thread that makes the call. Then the service, once it has handled what the process
sent, has the trees that the in-process build has (`follows_inProc`). The control calls carry
nothing of their arguments, so for the target of another there is nothing to agree on.

Two things the measured calls do not have come up. Before the first start there is no queue, and a
control call is lost; it would have found no tree either. And a close empties the stacks of the
ledger, so that nothing of the process may be open.
-/

namespace RdkPerf

open Lib

/-- A call of the process `pID` that is about itself, or about the thread that makes it, and closes
    nothing that is open. -/
def Nesting.Own (pID : pid_t) (n : Nesting) : Op → Prop
  | .start _ _ _ _ => True
  | .stop _ _ _ => True
  | .setThreshold _ h _ => ∃ tID, h ∈ n.handles tID
  | .reportProcess _ p _ => p = pID
  | .reportThread caller tID => tID = caller.tid
  | .closeThread caller tID => tID = caller.tid ∧ n.handles tID = []
  | .closeProcess _ p => p = pID ∧ ∀ tID, n.handles tID = []

/-- Such calls, one after the other. -/
def OwnCalls (pID : pid_t) (ops : List Op) : Prop :=
  WellNested ops ∧ ∀ pre op post, ops = pre ++ op :: post →
    ∀ n, Nesting.run pre = some n → n.Own pID op

/-! ## Reports, without thresholds -/

theorem CallTree.measured_report (ct : CallTree) : ct.report.measured = ct.measured.report := by
  refine CallTree.ext rfl rfl (funext fun σ => ?_) rfl rfl rfl
  show Option.map _ ((ct.node σ).map _) = (Option.map _ (ct.node σ)).map _
  rw [Option.map_map, Option.map_map]
  rfl

theorem CallTree.measured_inactive (ct : CallTree) : ct.measured.inactive = ct.inactive := rfl

/-! ## What the service shows of a process -/

/-- The service has of the process what the ledger calls for, but for thresholds. -/
structure Shows (pID : pid_t) (L : Ledger) (w : World) : Prop where
  registered : w.registered pID = L.registered
  tree : ∀ tID, (w.tree pID tID).map CallTree.measured = (L.thread tID).map ThreadLog.callTree

namespace Shows

variable {pID : pid_t} {L : Ledger} {w : World}

theorem init (pID : pid_t) : Shows pID .init .init := ⟨rfl, fun _ => rfl⟩

theorem reportThread (h : Shows pID L w) (msg : ThreadMessage) (hpID : msg.pID = pID)
    (caller : Caller) : ∃ w' b, w.handleReportThread msg = (w', b) ∧
      Shows pID (L.step pID (.reportThread caller msg.tID)) w' := by
  have htree := h.tree msg.tID
  rw [World.handleReportThread, hpID]
  cases hw : w.tree pID msg.tID with
  | none =>
    rw [hw] at htree
    have hl : L.thread msg.tID = none := Option.map_eq_none_iff.mp htree.symm
    refine ⟨w, false, rfl, h.registered, fun tID => ?_⟩
    rw [h.tree, Ledger.step, hl, Ledger.setThread_thread]
    split
    · next htID => rw [htID, hl]; rfl
    · rfl
  | some ct =>
    rw [hw] at htree
    refine ⟨_, true, rfl, h.registered, fun tID => ?_⟩
    rw [World.set_tree, Ledger.step, Ledger.setThread_thread]
    by_cases htID : tID = msg.tID
    · obtain ⟨l, hl, hct⟩ := Option.map_eq_some_iff.mp htree.symm
      rw [if_pos ⟨rfl, htID⟩, if_pos htID, hl, Option.map_some, Option.map_some, Option.map_some,
        CallTree.measured_report, ThreadLog.callTree_report, hct]
    · rw [if_neg fun hk => htID hk.2, if_neg htID]
      exact h.tree tID

theorem reportProcess (h : Shows pID L w) (hnone : L.registered = false → ∀ tID, L.thread tID = none)
    (caller : Caller) (env : Env) : ∃ w' b, w.handleReportProcess ⟨pID⟩ = (w', b) ∧
      Shows pID (L.step pID (.reportProcess caller pID env)) w' := by
  rw [World.handleReportProcess, Ledger.step, if_pos rfl, h.registered]
  cases hreg : L.registered with
  | false =>
    refine ⟨w, false, rfl, h.registered, fun tID => ?_⟩
    simp only [h.tree, Ledger.reportThreads, hnone hreg, Option.bind_none]
  | true =>
    refine ⟨_, true, rfl, h.registered, fun tID => ?_⟩
    have htree := h.tree tID
    rw [World.reportProcess_tree, if_pos rfl, Ledger.reportThreads]
    cases hw : w.tree pID tID with
    | none =>
      rw [hw] at htree
      have hl : L.thread tID = none := Option.map_eq_none_iff.mp htree.symm
      simp only [hl, Option.bind_none, Option.map_none]
    | some ct =>
      rw [hw] at htree
      obtain ⟨l, hl, hct⟩ := Option.map_eq_some_iff.mp htree.symm
      have hinactive : l.callTree.inactive = ct.inactive := by rw [hct, CallTree.measured_inactive]
      simp only [hl, Option.bind_some, hinactive]
      split
      · rfl
      · rw [Option.map_some, Option.map_some, CallTree.measured_report, ThreadLog.callTree_report, hct]

theorem closeThread (h : Shows pID L w) (msg : ThreadMessage) (hpID : msg.pID = pID)
    (caller : Caller) : Shows pID (L.step pID (.closeThread caller msg.tID))
      (w.handleCloseThread msg).1 := by
  refine ⟨h.registered, fun tID => ?_⟩
  rw [World.handleCloseThread, World.set_tree, Ledger.step, Ledger.setThread_thread, hpID]
  by_cases htID : tID = msg.tID
  · rw [if_pos ⟨rfl, htID⟩, if_pos htID]
    rfl
  · rw [if_neg fun hk => htID hk.2, if_neg htID]
    exact h.tree tID

theorem closeProcess (L : Ledger) (w : World) (caller : Caller) :
    Shows pID (L.step pID (.closeProcess caller pID)) (w.removeProcess pID) := by
  rw [Ledger.step, if_pos rfl]
  refine ⟨?_, fun tID => ?_⟩
  · rw [World.removeProcess_registered]
    simp
  · rw [World.removeProcess_tree, if_pos rfl]
    rfl

end Shows

/-! ## The client -/

/-- The client's side of `Mirrors`. -/
structure Booked (pID : pid_t) (L : Ledger) (c : Client) : Prop where
  self : c.pID = pID
  queue : L.next ≠ 0 → c.queue = true
  /-- Without a queue nothing was started. -/
  unopened : c.queue = false → L.registered = false
  next : c.objects.next = L.next
  object : ∀ {tID h calls}, OpenCall L tID h calls → ∃ object, c.objects.get h = some object ∧
    cutName object.szName.bytes = Path.label (pathOf calls) ∧ object.startTime = startOf calls

namespace Booked

variable {pID : pid_t} {s : InProc} {L : Ledger} {c c' : Client} {w : World} {n n' : Nesting}
  {op : Op}

theorem init (pID : pid_t) : Booked pID .init (.init pID) where
  self := rfl
  queue h := absurd rfl h
  unopened _ := rfl
  next := rfl
  object := by
    rintro tID h calls ⟨l, hl, -⟩
    exact absurd hl (by simp [Ledger.init])

theorem mirrors (hB : Booked pID L c) (hw : Shows pID L w) : Mirrors pID L c w :=
  ⟨hB.self, hB.queue, hB.next, hB.object, hw.tree⟩

/-- A control call changes nothing in the client. -/
theorem control (hS : Sim pID s L) (hB : Booked pID L c) (hop : op.isReport ∨ op.isClose)
    (hc : c'.pID = c.pID ∧ c'.queue = c.queue ∧ c'.objects = c.objects) :
    Booked pID (L.step pID op) c' := by
  have hnext : (L.step pID op).next = L.next := by
    cases op with
    | reportProcess caller p env =>
      simp only [Ledger.step]
      split <;> rfl
    | closeProcess caller p =>
      simp only [Ledger.step]
      split <;> rfl
    | _ => simp_all [Op.isReport, Op.isClose, Ledger.step]
  have hreg : L.registered = false → (L.step pID op).registered = false := by
    intro hreg
    cases op with
    | reportProcess caller p env =>
      simp only [Ledger.step]
      split <;> exact hreg
    | closeProcess caller p =>
      simp only [Ledger.step]
      split
      · rfl
      · exact hreg
    | _ => simp_all [Op.isReport, Op.isClose, Ledger.step]
  obtain ⟨hpID, hqueue, hobjects⟩ := hc
  constructor
  · rw [hpID, hB.self]
  · rw [hnext, hqueue]
    exact hB.queue
  · rw [hqueue]
    exact fun hno => hreg (hB.unopened hno)
  · rw [hobjects, hB.next, hnext]
  · intro tID h calls ho
    rw [hobjects]
    rcases hS.openCall_of_step ho with ⟨hold, -⟩ | ⟨_, _, _, _, rfl, -⟩
    · exact hB.object hold
    · exact absurd hop (by simp [Op.isReport, Op.isClose])

end Booked

/-! ## One call -/

/-- Without a process there are no threads. -/
theorem Sim.thread_none {pID : pid_t} {s : InProc} {L : Ledger} (hS : Sim pID s L)
    (hreg : L.registered = false) (tID : pthread_t) : L.thread tID = none := by
  have hrep := hS.rep
  rw [hS.pID] at hrep
  have hnone : (L.world pID).tree pID tID = none :=
    hrep.tree_none_of_unregistered (by simp [Ledger.world, hreg])
  rw [Ledger.world_tree_self] at hnone
  exact Option.map_eq_none_iff.mp hnone

/-- What the service makes of messages, whatever its clocks show. -/
def World.handleAll (w : World) (msgs : List PerfMessage) : Except Fault World :=
  msgs.foldlM (fun w msg => Prod.fst <$> w.handle msg) w

theorem World.handleAll_single {w w' : World} {msg : PerfMessage} {b : Bool}
    (h : w.handle msg = .ok (w', b)) : w.handleAll [msg] = .ok w' := by
  simp only [handleAll, List.foldlM_cons, List.foldlM_nil, h, map_ok, ok_bind, pure_eq_ok]

theorem World.foldlM_step_of_handleAll {ds : List Service.Delivery} {w w' : World}
    (answers : List (Service.Delivery × Bool)) (h : w.handleAll (ds.map (·.msg)) = .ok w') :
    ∃ answers', ds.foldlM World.step (w, answers) = .ok (w', answers') := by
  induction ds generalizing w answers with
  | nil =>
    obtain rfl := Except.ok.inj h
    exact ⟨answers, rfl⟩
  | cons d ds ih =>
    obtain ⟨w₁, hw₁, hrest⟩ := foldlM_cons_ok.mp h
    cases hd : w.handle d.msg with
    | error e =>
      rw [hd] at hw₁
      exact absurd hw₁ (by simp [Functor.map, Except.map])
    | ok wb =>
      rw [hd, map_ok] at hw₁
      obtain rfl := Except.ok.inj hw₁
      obtain ⟨answers', hds⟩ := ih (answers ++ [(d, wb.2)]) hrest
      refine ⟨answers', foldlM_cons_ok.mpr ⟨_, ?_, hds⟩⟩
      simp only [World.step, hd, ok_bind, pure_eq_ok]

section OneCall

variable {pID : pid_t} {s : InProc} {L : Ledger} {c : Client} {w : World} {n n' : Nesting} {op : Op}

/-- A control call before the first start finds no tree in either build. -/
theorem Shows.silent (hS : Sim pID s L) (h : Shows pID L w) (hreg : L.registered = false)
    (hop : op.isReport ∨ op.isClose) : Shows pID (L.step pID op) w := by
  have hnone := hS.thread_none hreg
  have htree : ∀ tID, w.tree pID tID = none := by
    intro tID
    have htree := h.tree tID
    rw [hnone] at htree
    exact Option.map_eq_none_iff.mp htree
  have hthread : ∀ tID, (L.step pID op).thread tID = none := by
    intro tID
    cases op with
    | reportProcess caller p env =>
      simp only [Ledger.step]
      split
      · simp [Ledger.reportThreads, hnone]
      · exact hnone tID
    | closeProcess caller p =>
      simp only [Ledger.step]
      split
      · rfl
      · exact hnone tID
    | _ => simp_all [Op.isReport, Op.isClose, Ledger.step]
  constructor
  · rw [h.registered]
    cases op with
    | reportProcess caller p env =>
      simp only [Ledger.step]
      split <;> rfl
    | closeProcess caller p =>
      simp only [Ledger.step]
      split
      · exact hreg
      · rfl
    | _ => simp_all [Op.isReport, Op.isClose, Ledger.step]
  · intro tID
    rw [htree, hthread]
    rfl

/-- A call after which the client, its message and the service's tree are what the ledger says. -/
def Delivered (pID : pid_t) (L : Ledger) (c : Client) (w : World) (op : Op) : Prop :=
  ∃ c' msgs w', c.step op = .ok c' ∧ c'.sent = c.sent ++ msgs ∧ w.handleAll msgs = .ok w' ∧
    Booked pID (L.step pID op.cut) c' ∧ Shows pID (L.step pID op.cut) w'

/-- A control call is one message, if there is a queue to send it to. -/
theorem Booked.step_message (hS : Sim pID s L) (hB : Booked pID L c) (hw : Shows pID L w)
    (hop : op.isReport ∨ op.isClose) {type : MessageType} (hcut : op.cut = op)
    (htype : type ≠ .eNoMessage ∧ type ≠ .eMaxType ∧ type ≠ .eEntry ∧ type ≠ .eExit ∧
      type ≠ .eThreshold)
    (hstep : c.step op = c.sendMessage op.caller type none 0 0)
    (hmsg : ∀ msg, PerfMsgQueue.sendMessage ⟨op.caller, c.pID⟩ type none 0 0 = .ok (some msg) →
      ∃ w' b, w.handle msg = .ok (w', b) ∧ Shows pID (L.step pID op) w') :
    Delivered pID L c w op := by
  rw [Delivered, hcut, hstep]
  cases hqueue : c.queue with
  | false =>
    refine ⟨c, [], w, ?_, by simp, rfl, hB.control hS hop ⟨rfl, rfl, rfl⟩, ?_⟩
    · rw [Client.sendMessage, if_neg (by simp [hqueue])]
      rfl
    · exact hw.silent hS (hB.unopened hqueue) hop
  | true =>
    obtain ⟨msg, hsent⟩ := PerfMsgQueue.sendMessage_accepts_iff.mpr
      ⟨htype.1, htype.2.1, fun _ => htype.2.2⟩
    obtain ⟨w', b, hhandle, hw'⟩ := hmsg msg hsent
    refine ⟨{ c with sent := c.sent ++ [msg] }, [msg], w', ?_, rfl, World.handleAll_single hhandle,
      hB.control hS hop ⟨rfl, rfl, rfl⟩, hw'⟩
    rw [Client.sendMessage, if_pos hqueue, hsent]
    rfl

/-- A call in its scope is one message, and the service makes of it what the in-process build
    does. -/
theorem Booked.step_scoped (hS : Sim pID s L) (hN : Nests n L) (hB : Booked pID L c)
    (hw : Shows pID L w) (hop : n.Scoped op) (hname : op.named) (hn : n.step op = some n') :
    Delivered pID L c w op := by
  obtain ⟨c', msg, w', b, hc, hsent, hhandle, hM⟩ := (hB.mirrors hw).step hS hN hop hname hn
  obtain ⟨msgs, hsends⟩ := Client.step_sends hc
  obtain rfl : [msg] = msgs := List.append_cancel_left (hsent.symm.trans hsends.sent)
  have hmap : w'.registered pID = (Life.call ⟨c.queue, L.registered⟩ op).left := by
    rw [World.handle_registered hhandle, hw.registered, ← hB.self]
    exact hsends.own L.registered
  have hreg : (L.step pID op.cut).registered = (Life.call ⟨c.queue, L.registered⟩ op).left ∧
      (c'.queue = false → (L.step pID op.cut).registered = false) := by
    have hqueue := hsends.queue L.registered
    cases op with
    | start caller szName nThresholdInUS env =>
      refine ⟨rfl, fun hno => ?_⟩
      exact absurd (hqueue.symm.trans hno) (by simp [Life.call])
    | stop caller h env => exact ⟨rfl, fun hno => hB.unopened (hqueue.symm.trans hno)⟩
    | setThreshold caller h nThresholdInUS =>
      exact ⟨rfl, fun hno => hB.unopened (hqueue.symm.trans hno)⟩
    | reportProcess _ _ _ | reportThread _ _ | closeThread _ _ | closeProcess _ _ => exact hop.elim
  exact ⟨c', [msg], w', hc, hsent, World.handleAll_single hhandle,
    ⟨hM.self, hM.queue, hreg.2, hM.next, hM.object⟩, hmap.trans hreg.1.symm, hM.tree⟩

/-- **One call of the process itself.** -/
theorem Booked.step (hS : Sim pID s L) (hN : Nests n L) (hB : Booked pID L c) (hw : Shows pID L w)
    (hown : n.Own pID op) (hname : op.named) (hn : n.step op = some n') : Delivered pID L c w op := by
  cases op with
  | start caller szName nThresholdInUS env =>
    exact hB.step_scoped hS hN hw trivial hname hn
  | stop caller h env => exact hB.step_scoped hS hN hw trivial hname hn
  | setThreshold caller h nThresholdInUS => exact hB.step_scoped hS hN hw hown hname hn
  | reportThread caller tID =>
    obtain rfl : tID = caller.tid := hown
    apply hB.step_message hS hw (Or.inl rfl) rfl (by simp) rfl
    intro msg hmsg
    obtain ⟨hcode, hdata⟩ := PerfMsgQueue.sent_reportThread hmsg
    obtain ⟨w', b, hhandle, hw'⟩ := hw.reportThread ⟨c.pID, caller.tid⟩ hB.self caller
    refine ⟨w', b, ?_, hw'⟩
    rw [World.handle, hcode, MessageType.ofCode_code]
    simp only [hdata]
    exact congrArg Except.ok hhandle
  | reportProcess caller p env =>
    obtain rfl : p = pID := hown
    apply hB.step_message hS hw (Or.inl rfl) rfl (by simp) rfl
    intro msg hmsg
    obtain ⟨hcode, hdata⟩ := PerfMsgQueue.sent_reportProcess hmsg
    obtain ⟨w', b, hhandle, hw'⟩ := hw.reportProcess hS.thread_none caller env
    refine ⟨w', b, ?_, hw'⟩
    rw [World.handle, hcode, MessageType.ofCode_code]
    simp only [hdata, hB.self, hhandle]
  | closeThread caller tID =>
    obtain ⟨rfl, -⟩ := hown
    apply hB.step_message hS hw (Or.inr rfl) rfl (by simp) rfl
    intro msg hmsg
    obtain ⟨hcode, hdata⟩ := PerfMsgQueue.sent_closeThread hmsg
    refine ⟨_, (w.handleCloseThread ⟨c.pID, caller.tid⟩).2, ?_,
      hw.closeThread ⟨c.pID, caller.tid⟩ hB.self caller⟩
    rw [World.handle, hcode, MessageType.ofCode_code]
    simp only [hdata]
    rfl
  | closeProcess caller p =>
    obtain ⟨rfl, -⟩ := hown
    apply hB.step_message hS hw (Or.inr rfl) rfl (by simp) rfl
    intro msg hmsg
    obtain ⟨hcode, hdata⟩ := PerfMsgQueue.sent_closeProcess hmsg
    refine ⟨_, true, ?_, .closeProcess L w caller⟩
    rw [World.handle, hcode, MessageType.ofCode_code]
    simp only [hdata, World.handleCloseProcess, hB.self]

/-- The open records are those of the ledger, as what is closed has none. -/
theorem Nests.own (hS : Sim pID s L) (hN : Nests n L) (hown : n.Own pID op)
    (hn : n.step op = some n') : Nests n' (L.step pID op) := by
  cases op with
  | start caller szName nThresholdInUS env =>
    exact hN.step hS (Or.inl rfl) hn
  | stop caller h env => exact hN.step hS (Or.inl rfl) hn
  | setThreshold caller h nThresholdInUS =>
    obtain rfl := Option.some.inj hn
    exact hN
  | reportThread caller tID => exact hN.step hS (Or.inr rfl) hn
  | reportProcess caller p env => exact hN.step hS (Or.inr rfl) hn
  | closeThread caller tID =>
    obtain rfl := Option.some.inj hn
    obtain ⟨-, hopen⟩ := hown
    refine ⟨hN.next, fun u => ?_⟩
    have hframes := hN.handles u
    rw [Ledger.frames, Ledger.step, Ledger.setThread_thread]
    split
    · next hu => rw [hu, hopen]; rfl
    · exact hframes
  | closeProcess caller p =>
    obtain rfl := Option.some.inj hn
    obtain ⟨rfl, hopen⟩ := hown
    rw [Ledger.step, if_pos rfl]
    refine ⟨hN.next, fun u => ?_⟩
    rw [hopen]
    rfl

end OneCall

/-! ## Runs -/

section Runs

variable {pID : pid_t} {ops : List Op} {n : Nesting} {s : InProc}

theorem OwnCalls.left {ops' : List Op} (h : OwnCalls pID (ops ++ ops')) : OwnCalls pID ops := by
  induction ops' using List.reverseRecOn with
  | nil => rwa [List.append_nil] at h
  | append_singleton ops' op ih =>
    rw [← List.append_assoc] at h
    obtain ⟨⟨n, hn⟩, hown⟩ := h
    obtain ⟨n₀, hn₀, -⟩ := Nesting.run_concat.mp hn
    exact ih ⟨⟨n₀, hn₀⟩, (forall_places_concat.mp hown).1⟩

theorem World.handleAll_append {w w₁ w' : World} {msgs msgs' : List PerfMessage}
    (h : w.handleAll msgs = .ok w₁) (h' : w₁.handleAll msgs' = .ok w') :
    w.handleAll (msgs ++ msgs') = .ok w' := foldlM_append_ok.mpr ⟨w₁, h, h'⟩

/-- The client and the service after the calls of a process, when the in-process build has an
    outcome on them. -/
theorem run_own (hops : OwnCalls pID ops) (hn : Nesting.run ops = some n)
    (hs : InProc.run pID (ops.map Op.cut) = .ok s) :
    Nests n (Ledger.run pID (ops.map Op.cut)) ∧ ∃ c w, Client.run pID ops = .ok c ∧
      Booked pID (Ledger.run pID (ops.map Op.cut)) c ∧
      Shows pID (Ledger.run pID (ops.map Op.cut)) w ∧ World.init.handleAll c.sent = .ok w := by
  induction ops using List.reverseRecOn generalizing n s with
  | nil =>
    obtain rfl := Option.some.inj hn
    exact ⟨.init, .init pID, .init, rfl, .init pID, .init pID, rfl⟩
  | append_singleton ops op ih =>
    obtain ⟨n₀, hn₀, hstep⟩ := Nesting.run_concat.mp hn
    rw [List.map_append, List.map_singleton] at hs ⊢
    obtain ⟨s₀, hs₀, hop⟩ := foldlM_concat_ok.mp hs
    obtain ⟨hN, c, w, hc, hB, hw, hsent⟩ := ih hops.left hn₀ hs₀
    have hS := InProc.run_sim hs₀
    have hown := (forall_places_concat.mp hops.2).2 n₀ hn₀
    have hname : op.named := Op.named_cut.mp (hS.step_legal hop).named
    obtain ⟨c', msgs, w', hc', hsent', hw', hB', hshows⟩ := hB.step hS hN hw hown hname hstep
    rw [Ledger.run_concat]
    refine ⟨?_, c', w', foldlM_concat_ok.mpr ⟨c, hc, hc'⟩, hB', hshows, ?_⟩
    · apply hN.own hS
      · cases op <;> exact hown
      · rw [Nesting.step_cut]
        exact hstep
    · rw [hsent']
      exact World.handleAll_append hsent hw'

/-- The service that handles such messages has what they show. -/
theorem Shows.service {ds : List Service.Delivery} {w : World}
    (hs : InProc.run pID (ops.map Op.cut) = .ok s)
    (hw : Shows pID (Ledger.run pID (ops.map Op.cut)) w)
    (hds : World.init.handleAll (ds.map (·.msg)) = .ok w) :
    ∃ service, Service.run ds = .ok service ∧
      service.mem.processMap.contains pID = s.mem.processMap.contains pID ∧
      ∀ tID, (service.mem.view pID tID).map CallTree.measured =
        (s.mem.view pID tID).map CallTree.measured := by
  obtain ⟨answers, hrun⟩ := World.foldlM_step_of_handleAll [] hds
  obtain ⟨service, hservice, hsim⟩ := Service.run_sim_back hrun
  have hS := InProc.run_sim hs
  refine ⟨service, hservice, ?_, hS.view_measured hsim.rep hw.tree⟩
  rw [hsim.rep.registered, hw.registered, hS.rep.registered, hS.pID]
  simp [Ledger.world]

/-- **The builds agree through reports and closes.** -/
theorem follows_inProc (pID : pid_t) (ops : List Op) (s : InProc) (hops : OwnCalls pID ops)
    (hs : InProc.run pID (ops.map Op.cut) = .ok s) :
    ∃ c, Client.run pID ops = .ok c ∧
      ∀ ds : List Service.Delivery, ds.map (·.msg) = c.sent →
        ∃ service, Service.run ds = .ok service ∧
          service.mem.processMap.contains pID = s.mem.processMap.contains pID ∧
          ∀ tID, (service.mem.view pID tID).map CallTree.measured =
            (s.mem.view pID tID).map CallTree.measured := by
  obtain ⟨n, hn⟩ := hops.1
  obtain ⟨-, c, w, hc, -, hw, hsent⟩ := run_own hops hn hs
  refine ⟨c, hc, fun ds hds => ?_⟩
  rw [← hds] at hsent
  exact hw.service hs hsent

/-- Starts and stops alone are such calls, if they are well nested. -/
theorem own_of_measured (pID : pid_t) {ops : List Op}
    (hops : ∀ op ∈ ops, op.isMeasure ∧ op.named) (hnest : WellNested ops) :
    OwnCalls pID ops ∧ ∃ s, InProc.run pID (ops.map Op.cut) = .ok s := by
  have hmeasure : ∀ {pre op post}, ops = pre ++ op :: post → op.isMeasure := by
    rintro pre op post rfl
    exact (hops op (by simp)).1
  obtain ⟨n, hn⟩ := hnest
  obtain ⟨s, c, w, hs, -⟩ := run_mirrors pID
    (fun pre op post hsplit n _ => Nesting.scoped_of_isMeasure (hmeasure hsplit) n)
    (fun op hmem => (hops op hmem).2) hn
  refine ⟨⟨⟨n, hn⟩, fun pre op post hsplit n _ => ?_⟩, s, hs⟩
  have hop := hmeasure hsplit
  cases op with
  | start caller szName nThresholdInUS env => trivial
  | stop caller h env => trivial
  | setThreshold _ _ _ | reportProcess _ _ _ | reportThread _ _ | closeThread _ _
  | closeProcess _ _ => exact absurd hop (by simp [Op.isMeasure])

/-- Two threads call and report; one of them closes itself, and the process closes itself. -/
def reportedAndClosed : List Op :=
  [.closeThread threadA 1, .start threadA nameF none { timeStamp := 10 },
    .start threadB nameG (some 5) { timeStamp := 11 }, .reportThread threadA 1,
    .stop threadA 0 { timeStamp := 15 }, .reportProcess threadB 42 {}, .closeThread threadA 1,
    .stop threadB 1 { timeStamp := 16 }, .closeProcess threadB 42]

theorem reportedAndClosed_own : OwnCalls 42 reportedAndClosed := by
  refine ⟨⟨_, rfl⟩, ?_⟩
  rw [reportedAndClosed]
  repeat rw [forall_places_cons]
  refine ⟨?_, ?_, ?_, ?_, ?_, ?_, ?_, ?_, ?_, forall_places_nil⟩
  all_goals
    intro n hn
    obtain rfl := Option.some.inj hn
    simp +contextual [Nesting.Own, Nesting.set, threadA, threadB, Nesting.init]

theorem reportedAndClosed_follows : ∃ s c, InProc.run 42 (reportedAndClosed.map Op.cut) = .ok s ∧
    Client.run 42 reportedAndClosed = .ok c ∧
      ∀ ds : List Service.Delivery, ds.map (·.msg) = c.sent →
        ∃ service, Service.run ds = .ok service ∧
          service.mem.processMap.contains 42 = s.mem.processMap.contains 42 ∧
          ∀ tID, (service.mem.view 42 tID).map CallTree.measured =
            (s.mem.view 42 tID).map CallTree.measured := by
  obtain ⟨s, hs, -⟩ := ok_of_toOption_bind
    (show (InProc.run 42 (reportedAndClosed.map Op.cut)).toOption.bind (fun s => some s.pID) =
      some 42 by decide)
  obtain ⟨c, hc, hfollows⟩ := follows_inProc 42 reportedAndClosed s reportedAndClosed_own hs
  exact ⟨s, c, hs, hc, hfollows⟩

end Runs
end RdkPerf

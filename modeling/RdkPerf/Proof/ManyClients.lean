import RdkPerf.Proof.OwnCalls

/-!
# Many clients and one service

Any number of processes of the remote build call, send and terminate while the service handles what
they sent. At every moment the service has of each process the trees the in-process build would
have, had the process made only the first of its calls: it is behind, and never wrong
(`Clients.behind`).

Nothing is lost and nothing is sent twice (`Accounts`): of each process, what was handled and what
is still queued is what its client sent. As a call sends one message at most, what was handled is
what a first part of the calls sent, and as a message changes the trees of its sender only, the rest
is one client and the service.
-/

namespace RdkPerf

open Lib

/-- The pid a message carries. -/
def PerfMessage.sender (msg : PerfMessage) : Option pid_t :=
  (msg.threadOf.map Prod.fst).or msg.processOf

/-! ## What a call sends -/

section Sent

open PerfMsgQueue

variable {self : Sender} {szName : CString} {name : Option CString} {nTimeStamp : UInt64}
  {nUS : Int32} {msg : PerfMessage}

theorem sender_of_thread {t : pthread_t} {p : pid_t} (h : msg.threadOf = some (p, t)) :
    msg.sender = some p := by
  rw [PerfMessage.sender, h]
  rfl

theorem sender_of_process {p : pid_t} (h : msg.processOf = some p) : msg.sender = some p := by
  rw [PerfMessage.sender, PerfMessage.threadOf_of_processOf h, h]
  rfl

/-- A message carries the pid of the process it was sent from. -/
theorem sent_sender {type : MessageType}
    (h : sendMessage self type name nTimeStamp nUS = .ok (some msg)) (htype : type ≠ .eExitQueue) :
    msg.sender = some self.pID := by
  have hname : name = none → type ≠ .eEntry ∧ type ≠ .eExit ∧ type ≠ .eThreshold :=
    (sendMessage_accepts_iff.mp ⟨msg, h⟩).2.2
  cases type with
  | eNoMessage | eMaxType => exact absurd h (by simp [sendMessage])
  | eExitQueue => exact absurd rfl htype
  | eEntry =>
    cases name with
    | none => exact absurd rfl (hname rfl).1
    | some szName =>
      obtain ⟨hcode, hdata⟩ := sent_entry h
      apply sender_of_thread (t := self.tid)
      rw [PerfMessage.threadOf, hcode, MessageType.ofCode_code]
      simp only [hdata]
  | eExit =>
    cases name with
    | none => exact absurd rfl (hname rfl).2.1
    | some szName =>
      obtain ⟨hcode, hdata⟩ := sent_exit h
      apply sender_of_thread (t := self.tid)
      rw [PerfMessage.threadOf, hcode, MessageType.ofCode_code]
      simp only [hdata]
  | eThreshold =>
    cases name with
    | none => exact absurd rfl (hname rfl).2.2
    | some szName =>
      obtain ⟨hcode, hdata⟩ := sent_threshold h
      apply sender_of_thread (t := self.tid)
      rw [PerfMessage.threadOf, hcode, MessageType.ofCode_code]
      simp only [hdata]
  | eReportThread =>
    obtain ⟨hcode, hdata⟩ := sent_reportThread h
    apply sender_of_thread (t := self.tid)
    rw [PerfMessage.threadOf, hcode, MessageType.ofCode_code]
    simp only [hdata]
  | eCloseThread =>
    obtain ⟨hcode, hdata⟩ := sent_closeThread h
    apply sender_of_thread (t := self.tid)
    rw [PerfMessage.threadOf, hcode, MessageType.ofCode_code]
    simp only [hdata]
  | eReportProcess =>
    obtain ⟨hcode, hdata⟩ := sent_reportProcess h
    apply sender_of_process
    rw [PerfMessage.processOf, hcode, MessageType.ofCode_code]
    simp only [hdata]
  | eCloseProcess =>
    obtain ⟨hcode, hdata⟩ := sent_closeProcess h
    apply sender_of_process
    rw [PerfMessage.processOf, hcode, MessageType.ofCode_code]
    simp only [hdata]

end Sent

/-- A message a client can send. -/
def PerfMessage.IsSent (msg : PerfMessage) : Prop :=
  ∃ self type name nTimeStamp nUS,
    PerfMsgQueue.sendMessage self type name nTimeStamp nUS = .ok (some msg) ∧ type ≠ .eExitQueue

/-- An entry has a name. -/
def PerfMessage.Named (msg : PerfMessage) : Prop :=
  MessageType.ofCode msg.type = some .eEntry → msg.entry.szName ≠ some []

theorem PerfMessage.named_of_type {msg : PerfMessage} {type : MessageType}
    (h : msg.type = type.code) (htype : type ≠ .eEntry) : msg.Named := by
  intro hentry
  rw [h, MessageType.ofCode_code] at hentry
  exact absurd (Option.some.inj hentry) htype

section Makes

variable {pID : pid_t} {op : Op} {msg : PerfMessage}

theorem Op.Makes.isSent (h : op.Makes pID msg) : msg.IsSent ∧ msg.sender = some pID := by
  obtain ⟨szName, nTimeStamp, nUS, hmsg, -⟩ := h
  have htype : op.messageType ≠ .eExitQueue := by cases op <;> simp [Op.messageType]
  exact ⟨⟨_, _, _, _, _, hmsg, htype⟩, sent_sender hmsg htype⟩

/-- Only a start makes an entry, and under the name it is given. -/
theorem Op.Makes.named_iff (h : op.Makes pID msg) : msg.Named ↔ op.named := by
  cases op with
  | start caller szName nThresholdInUS env =>
    obtain ⟨_, nTimeStamp, nUS, hmsg, hname⟩ := h
    obtain rfl := hname caller szName nThresholdInUS env rfl
    obtain ⟨htype, hentry⟩ := PerfMsgQueue.sent_entry hmsg
    rw [PerfMessage.Named, htype, MessageType.ofCode_code, hentry]
    simp [Op.named, cutName_eq_nil]
  | stop _ _ _ | setThreshold _ _ _ | reportProcess _ _ _ | reportThread _ _ | closeThread _ _
  | closeProcess _ _ =>
    exact iff_of_true (PerfMessage.named_of_type h.type (by simp [Op.messageType])) rfl

end Makes

namespace Client

variable {c c' : Client} {op : Op}

/-- What is sent first was sent by the first calls. -/
theorem run_prefix {pID : pid_t} {ops : List Op} {msgs rest : List PerfMessage}
    (h : run pID ops = .ok c) (hsent : c.sent = msgs ++ rest) : ∃ done pending c₀,
      ops = done ++ pending ∧ run pID done = .ok c₀ ∧ c₀.sent = msgs := by
  induction ops using List.reverseRecOn generalizing c rest with
  | nil =>
    obtain rfl := Except.ok.inj h
    obtain ⟨rfl, -⟩ := List.append_eq_nil_iff.mp hsent.symm
    exact ⟨[], [], _, rfl, rfl, rfl⟩
  | append_singleton ops op ih =>
    rcases List.eq_nil_or_concat rest with rfl | ⟨rest, last, rfl⟩
    · exact ⟨ops ++ [op], [], c, by simp, h, by simpa using hsent⟩
    · obtain ⟨c₁, hc₁, hop⟩ := foldlM_concat_ok.mp h
      obtain ⟨msg, hmsg, -⟩ := step_made hop
      rw [hmsg] at hsent
      have hsplit : ∃ rest', c₁.sent = msgs ++ rest' := by
        cases msg with
        | none => exact ⟨_, by simpa using hsent⟩
        | some m =>
          rw [List.concat_eq_append, ← List.append_assoc] at hsent
          exact ⟨rest, (List.append_inj' hsent rfl).1⟩
      obtain ⟨rest', hrest'⟩ := hsplit
      obtain ⟨done, pending, c₀, rfl, hc₀, hdone⟩ := ih hc₁ hrest'
      exact ⟨done, pending ++ [op], c₀, by simp, hc₀, hdone⟩

theorem run_pID {pID : pid_t} {ops : List Op} (h : run pID ops = .ok c) : c.pID = pID := by
  refine foldlM_inv (I := fun c => c.pID = pID) ?_ rfl h
  intro c op c' _ hc hop
  rw [(step_spec hop).pID, hc]

end Client

/-! ## What the service makes of it -/

/-- A message that was sent has its strings, so that handling it has an outcome unless it enters a
    call without a name. -/
theorem World.handle_sent {msg : PerfMessage} (h : msg.IsSent) (hname : msg.Named) (w : World) :
    ∃ w' b, w.handle msg = .ok (w', b) := by
  suffices hlegal : msg.Legal w.tree by
    obtain ⟨⟨w', b⟩, hhandle⟩ := World.handle_ok_iff.mpr hlegal
    exact ⟨w', b, hhandle⟩
  obtain ⟨self, type, name, nTimeStamp, nUS, hmsg, htype⟩ := h
  have hgiven : name = none → type ≠ .eEntry ∧ type ≠ .eExit ∧ type ≠ .eThreshold :=
    (PerfMsgQueue.sendMessage_accepts_iff.mp ⟨msg, hmsg⟩).2.2
  unfold PerfMessage.Named at hname
  unfold PerfMessage.Legal
  cases type with
  | eNoMessage | eMaxType => exact absurd hmsg (by simp [PerfMsgQueue.sendMessage])
  | eExitQueue => exact absurd rfl htype
  | eEntry =>
    obtain ⟨szName, rfl⟩ := Option.ne_none_iff_exists'.mp fun hnone => (hgiven hnone).1 rfl
    obtain ⟨hcode, hdata⟩ := PerfMsgQueue.sent_entry hmsg
    rw [hcode, MessageType.ofCode_code] at hname ⊢
    simp only [hdata, forall_const] at hname ⊢
    exact ⟨⟨_, rfl, fun hempty => hname (by rw [hempty])⟩,
      fun _ => ⟨_, rfl, Nat.le_of_lt self.threadName.short⟩⟩
  | eExit =>
    obtain ⟨szName, rfl⟩ := Option.ne_none_iff_exists'.mp fun hnone => (hgiven hnone).2.1 rfl
    obtain ⟨hcode, hdata⟩ := PerfMsgQueue.sent_exit hmsg
    rw [hcode, MessageType.ofCode_code]
    simp only [hdata]
    exact fun _ => by simp
  | eThreshold =>
    obtain ⟨szName, rfl⟩ := Option.ne_none_iff_exists'.mp fun hnone => (hgiven hnone).2.2 rfl
    rw [(PerfMsgQueue.sent_threshold hmsg).1, MessageType.ofCode_code]
    trivial
  | eReportThread =>
    rw [(PerfMsgQueue.sent_reportThread hmsg).1, MessageType.ofCode_code]
    trivial
  | eCloseThread =>
    rw [(PerfMsgQueue.sent_closeThread hmsg).1, MessageType.ofCode_code]
    trivial
  | eReportProcess =>
    rw [(PerfMsgQueue.sent_reportProcess hmsg).1, MessageType.ofCode_code]
    trivial
  | eCloseProcess =>
    rw [(PerfMsgQueue.sent_closeProcess hmsg).1, MessageType.ofCode_code]
    trivial

/-- What concerns a thread was sent by its process. -/
theorem PerfMessage.sender_of_concerns {msg : PerfMessage} {p : pid_t} {t : pthread_t}
    (h : msg.concerns p t = true) : msg.sender = some p := by
  rcases of_decide_eq_true h with hthread | hprocess
  · exact sender_of_thread hthread
  · exact sender_of_process hprocess

/-- The tree of a thread is what the messages of its process make it. -/
theorem Service.view_of_sender {ds : List Delivery} {s s' : State} {pID : pid_t}
    (hs : run ds = .ok s) (hs' : run (ds.filter (·.msg.sender = some pID)) = .ok s')
    (tID : pthread_t) : s.mem.view pID tID = s'.mem.view pID tID := by
  -- both agree with the run of what concerns the thread
  obtain ⟨s₁, hs₁, hA⟩ := run_agrees pID tID hs
  obtain ⟨s₂, hs₂, hA'⟩ := run_agrees pID tID hs'
  have hfilter : (ds.filter (·.msg.sender = some pID)).filter (·.msg.concerns pID tID) =
      ds.filter (·.msg.concerns pID tID) := by
    rw [List.filter_filter]
    apply List.filter_congr
    intro d _
    cases hd : d.msg.concerns pID tID with
    | false => simp
    | true => simp [PerfMessage.sender_of_concerns hd]
  rw [hfilter] at hs₂
  obtain rfl := Except.ok.inj (hs₁.symm.trans hs₂)
  obtain ⟨ws, ws₁, hS, hS₁, htree, -⟩ := hA
  obtain ⟨ws', ws₂, hS', hS₂, htree', -⟩ := hA'
  rw [hS.rep.view, hS'.rep.view, htree, htree', ← hS₁.rep.view, ← hS₂.rep.view]

/-! ## The accounts -/

/-- The calls a process has made. -/
def callsOf (pID : pid_t) (actions : List Clients.Action) : List Op :=
  actions.filterMap fun
    | .call p op => if p = pID then some op else none
    | _ => none

/-- A pid is given to one process only, of those that call. -/
def PidsOnce (actions : List Clients.Action) : Prop :=
  ∀ pre pID post, actions = pre ++ .init pID :: post → callsOf pID pre = []

theorem callsOf_concat (pID : pid_t) (actions : List Clients.Action) (a : Clients.Action) :
    callsOf pID (actions ++ [a]) = callsOf pID actions ++ callsOf pID [a] :=
  List.filterMap_append

namespace Clients

variable {actions : List Action} {s s' : State}

/-- What was handled and what is in the queue is, of each process, what its client sent. -/
def Accounts (actions : List Action) (s : State) : Prop :=
  ∃ ds, Service.run ds = .ok s.service ∧ ∀ pID, ∃ c,
    Client.run pID (callsOf pID actions) = .ok c ∧ (∀ p, s.live pID = some p → p.client = c) ∧
    c.sent = (ds.map (·.msg) ++ s.queue).filter (·.sender = some pID)

theorem Accounts.init : Accounts [] .init :=
  ⟨[], rfl, fun pID => ⟨.init pID, rfl, fun p hp => absurd hp (by simp [State.init]), rfl⟩⟩

theorem Accounts.spawned {pID : pid_t} (h : Accounts actions s) (hfresh : callsOf pID actions = []) :
    Accounts (actions ++ [.init pID]) (s.setLive pID (some (.PerfModuleInit pID))) := by
  obtain ⟨ds, hds, hacc⟩ := h
  refine ⟨ds, hds, fun q => ?_⟩
  obtain ⟨c, hc, hlive, hsent⟩ := hacc q
  refine ⟨c, by rwa [callsOf_concat, show callsOf q [.init pID] = [] from rfl, List.append_nil],
    fun p hp => ?_, hsent⟩
  rw [State.setLive_live] at hp
  split at hp
  · next hq =>
    subst hq
    rw [hfresh] at hc
    obtain rfl := Option.some.inj hp
    exact Except.ok.inj hc
  · exact hlive p hp

theorem Accounts.called {pID : pid_t} {op : Op} {p : ClientProcess} {client : Client}
    {msg : Option PerfMessage} (h : Accounts actions s) (hlive : s.live pID = some p)
    (hstep : p.client.step op = .ok client) (hmsg : client.sent = p.client.sent ++ msg.toList)
    (hmade : ∀ m ∈ msg.toList, op.Makes p.client.pID m) : Accounts (actions ++ [.call pID op])
      ({ s with queue := s.queue ++ msg.toList }.setLive pID (some { p with client := client })) := by
  obtain ⟨ds, hds, hacc⟩ := h
  obtain ⟨c, hc, hlive₀, hsent⟩ := hacc pID
  obtain rfl := hlive₀ p hlive
  have hpID := Client.run_pID hc
  refine ⟨ds, hds, fun q => ?_⟩
  show ∃ c : Client, _ ∧ _ ∧ c.sent = (_ ++ (s.queue ++ msg.toList)).filter _
  rw [callsOf_concat, ← List.append_assoc, List.filter_append]
  by_cases hq : q = pID
  · subst hq
    refine ⟨client, ?_, fun p₁ hp₁ => ?_, ?_⟩
    · rw [show callsOf q [.call q op] = [op] by simp [callsOf]]
      exact foldlM_concat_ok.mpr ⟨p.client, hc, hstep⟩
    · rw [State.setLive_live, if_pos rfl] at hp₁
      obtain rfl := Option.some.inj hp₁
      rfl
    · have hall : msg.toList.filter (·.sender = some q) = msg.toList := by
        apply List.filter_eq_self.mpr
        intro m hm
        apply decide_eq_true
        rw [(hmade m hm).isSent.2, hpID]
      rw [hmsg, hsent, hall]
  · obtain ⟨c₁, hc₁, hlive₁, hsent₁⟩ := hacc q
    refine ⟨c₁, ?_, fun p₁ hp₁ => ?_, ?_⟩
    · rwa [show callsOf q [.call pID op] = [] by simp [callsOf, Ne.symm hq], List.append_nil]
    · rw [State.setLive_live, if_neg hq] at hp₁
      exact hlive₁ p₁ hp₁
    · have hnone : msg.toList.filter (·.sender = some q) = [] := by
        apply List.filter_eq_nil_iff.mpr
        intro m hm
        simp [(hmade m hm).isSent.2, hpID, Ne.symm hq]
      rw [hsent₁, hnone, List.append_nil]

theorem Accounts.terminated {pID : pid_t} (h : Accounts actions s) :
    Accounts (actions ++ [.terminate pID]) (s.setLive pID none) := by
  obtain ⟨ds, hds, hacc⟩ := h
  refine ⟨ds, hds, fun q => ?_⟩
  obtain ⟨c, hc, hlive, hsent⟩ := hacc q
  refine ⟨c, by rwa [callsOf_concat, show callsOf q [.terminate pID] = [] from rfl,
    List.append_nil], fun p₁ hp₁ => ?_, hsent⟩
  rw [State.setLive_live] at hp₁
  split at hp₁
  · exact absurd hp₁ (by simp)
  · exact hlive p₁ hp₁

theorem Accounts.handled {env : Env} {msg : PerfMessage} {queue : List PerfMessage}
    {service : Service.State} (h : Accounts actions s) (hqueue : s.queue = msg :: queue)
    (hservice : Service.step s.service ⟨msg, env⟩ = .ok service) :
    Accounts (actions ++ [.handle env]) { s with queue := queue, service := service } := by
  obtain ⟨ds, hds, hacc⟩ := h
  have hrun : Service.run (ds ++ [⟨msg, env⟩]) = .ok service :=
    foldlM_concat_ok.mpr ⟨s.service, hds, hservice⟩
  refine ⟨ds ++ [⟨msg, env⟩], hrun, fun q => ?_⟩
  obtain ⟨c, hc, hlive, hsent⟩ := hacc q
  refine ⟨c, by rwa [callsOf_concat, show callsOf q [.handle env] = [] from rfl,
    List.append_nil], hlive, ?_⟩
  rw [hsent, hqueue, List.map_append, List.append_assoc]
  rfl

theorem Accounts.step {a : Action} (h : Accounts actions s) (hs : Happens s a s')
    (hfresh : ∀ pID, a = .init pID → callsOf pID actions = []) : Accounts (actions ++ [a]) s' := by
  cases hs with
  | started pID _ => exact h.spawned (hfresh pID rfl)
  | called pID op p client msg hlive hstep hmsg hmade => exact h.called hlive hstep hmsg hmade
  | terminated pID p _ => exact h.terminated
  | handled env msg queue service hqueue hservice => exact h.handled hqueue hservice

theorem run_concat {a : Action} :
    run (actions ++ [a]) = some s' ↔ ∃ s, run actions = some s ∧ step s a = some s' := by
  unfold run
  rw [List.foldlM_append]
  simp [Option.bind_eq_some_iff]

theorem run_append {rest : List Action} :
    run (actions ++ rest) = some s' ↔ ∃ s, run actions = some s ∧ rest.foldlM step s = some s' := by
  unfold run
  rw [List.foldlM_append]
  simp [Option.bind_eq_some_iff]

theorem run_accounts (h : run actions = some s) (hpids : PidsOnce actions) : Accounts actions s := by
  induction actions using List.reverseRecOn generalizing s with
  | nil =>
    obtain rfl := Option.some.inj h
    exact .init
  | append_singleton actions a ih =>
    obtain ⟨s₀, hs₀, hstep⟩ := run_concat.mp h
    have hA := ih hs₀ fun pre pID post hsplit => hpids pre pID (post ++ [a]) (by simp [hsplit])
    refine hA.step (step_happens hstep) fun pID ha => ?_
    subst ha
    exact hpids actions pID [] rfl

/-- What was handled is what a first part of the calls sent. -/
theorem Accounts.firstCalls (h : Accounts actions s)
    (hown : ∀ pID, OwnCalls pID (callsOf pID actions))
    (hinProc : ∀ pID, ∃ inProc, InProc.run pID ((callsOf pID actions).map Op.cut) = .ok inProc)
    (pID : pid_t) : ∃ done pending c₀ c inProc,
      callsOf pID actions = done ++ pending ∧ Client.run pID done = .ok c₀ ∧
      Client.run pID (callsOf pID actions) = .ok c ∧
      c.sent = c₀.sent ++ s.queue.filter (·.sender = some pID) ∧
      InProc.run pID (done.map Op.cut) = .ok inProc ∧
      ∀ tID, (s.service.mem.view pID tID).map CallTree.measured =
        (inProc.mem.view pID tID).map CallTree.measured := by
  obtain ⟨ds, hds, hacc⟩ := h
  obtain ⟨c, hc, -, hsent⟩ := hacc pID
  rw [List.filter_append, List.filter_map] at hsent
  obtain ⟨done, pending, c₀, hcalls, hc₀, hdone⟩ := Client.run_prefix hc hsent
  obtain ⟨all, hall⟩ := hinProc pID
  rw [hcalls, List.map_append] at hall
  obtain ⟨inProc, hrun, -⟩ := foldlM_append_ok.mp hall
  have hops : OwnCalls pID done := (hcalls ▸ hown pID).left
  obtain ⟨n, hn⟩ := hops.1
  obtain ⟨-, c₁, w, hc₁, -, hw, hhandled⟩ := run_own hops hn hrun
  obtain rfl := Except.ok.inj (hc₀.symm.trans hc₁)
  rw [hdone] at hhandled
  obtain ⟨service, hservice, -, hview⟩ := hw.service hrun hhandled
  refine ⟨done, pending, c₀, c, inProc, hcalls, hc₀, hc, hsent.trans (by rw [hdone]), hrun,
    fun tID => ?_⟩
  rw [← hview, Service.view_of_sender hds hservice]

/-- **The service is behind, and never wrong.** Where the processes make calls of their own that
    the in-process build has an outcome on, the service has of each process the trees of the
    in-process build after the first of its calls, and the queue has what the others sent. -/
theorem behind {actions : List Action} {s : State} (h : run actions = some s)
    (hpids : PidsOnce actions) (hown : ∀ pID, OwnCalls pID (callsOf pID actions))
    (hinProc : ∀ pID, ∃ inProc, InProc.run pID ((callsOf pID actions).map Op.cut) = .ok inProc)
    (pID : pid_t) : ∃ done pending c₀ c inProc,
      callsOf pID actions = done ++ pending ∧ Client.run pID done = .ok c₀ ∧
      Client.run pID (callsOf pID actions) = .ok c ∧
      c.sent = c₀.sent ++ s.queue.filter (·.sender = some pID) ∧
      InProc.run pID (done.map Op.cut) = .ok inProc ∧
      ∀ tID, (s.service.mem.view pID tID).map CallTree.measured =
        (inProc.mem.view pID tID).map CallTree.measured :=
  (run_accounts h hpids).firstCalls hown hinProc pID

/-- Two processes start a call each; the service has handled one of the three messages. -/
def twoProcesses : List Action :=
  [.init 42, .init 43, .call 42 (.start threadA nameF none { timeStamp := 10 }),
    .call 43 (.start threadA nameG (some 5) { timeStamp := 11 }), .handle {},
    .call 42 (.stop threadA 0 { timeStamp := 12 })]

theorem twoProcesses_once : PidsOnce twoProcesses := by
  have hall : ∀ pre a post, twoProcesses = pre ++ a :: post →
      ∀ pID, a = .init pID → callsOf pID pre = [] := by
    rw [twoProcesses]
    repeat rw [forall_places_cons]
    refine ⟨?_, ?_, ?_, ?_, ?_, ?_, forall_places_nil⟩
    all_goals
      intro pID hinit
      cases hinit
      try rfl
  exact fun pre pID post hsplit => hall pre _ post hsplit pID rfl

theorem twoProcesses_own (pID : pid_t) : OwnCalls pID (callsOf pID twoProcesses) ∧
    ∃ inProc, InProc.run pID ((callsOf pID twoProcesses).map Op.cut) = .ok inProc := by
  by_cases h42 : pID = 42
  · subst h42
    exact own_of_measured 42 (by decide) ⟨_, rfl⟩
  · by_cases h43 : pID = 43
    · subst h43
      exact own_of_measured 43 (by decide) ⟨_, rfl⟩
    · have hnone : callsOf pID twoProcesses = [] := by
        simp [callsOf, twoProcesses, Ne.symm h42, Ne.symm h43]
      rw [hnone]
      exact own_of_measured pID (by simp) ⟨_, rfl⟩

theorem twoProcesses_behind : ∃ s, run twoProcesses = some s ∧
    ∃ done pending c₀ c inProc,
      callsOf 42 twoProcesses = done ++ pending ∧ Client.run 42 done = .ok c₀ ∧
      Client.run 42 (callsOf 42 twoProcesses) = .ok c ∧
      c.sent = c₀.sent ++ s.queue.filter (·.sender = some 42) ∧
      InProc.run 42 (done.map Op.cut) = .ok inProc ∧
      ∀ tID, (s.service.mem.view 42 tID).map CallTree.measured =
        (inProc.mem.view 42 tID).map CallTree.measured := by
  obtain ⟨s, hs, -⟩ := Option.map_eq_some_iff.mp
    (show (run twoProcesses).map (·.queue.length) = some 2 by decide)
  exact ⟨s, hs, behind hs twoProcesses_once (fun pID => (twoProcesses_own pID).1)
    (fun pID => (twoProcesses_own pID).2) 42⟩

end Clients
end RdkPerf

import RdkPerf.Model.Clients
import RdkPerf.Proof.BuildsAgree
import RdkPerf.Proof.Isolation

/-!
# What the service knows of a process

A process that terminates is removed from its own process map, which is empty in the remote build,
and nobody tells the service. It goes on knowing the pid, with the tree and the open calls of the
process that is gone, unless a call told it to forget.

The map of the service follows the messages: `registers` says of a list of messages whether a pid
is in the map after them. What a process sends follows its calls, which is `Life`. The invariant
`Follows` is that the two agree, on what was handled and what is still in the queue together.
-/

namespace RdkPerf

open Lib

/-! ## What the messages register -/

/-- Whether the pid is in the map after the message, if `b` says whether it was before. -/
def registersMsg (pID : pid_t) (b : Bool) (msg : PerfMessage) : Bool :=
  if msg.type = MessageType.eEntry.code ∧ msg.entry.pID = pID then true
  else if msg.type = MessageType.eCloseProcess.code ∧ msg.close_process.pID = pID then false
  else b

def registers (pID : pid_t) (msgs : List PerfMessage) : Bool :=
  msgs.foldl (registersMsg pID) false

variable {pID : pid_t} {msg : PerfMessage} {b : Bool}

theorem registers_append (msgs msgs' : List PerfMessage) :
    registers pID (msgs ++ msgs') = msgs'.foldl (registersMsg pID) (registers pID msgs) := by
  rw [registers, List.foldl_append]
  rfl

theorem registersMsg_entry (h : msg.type = MessageType.eEntry.code) :
    registersMsg pID b msg = (decide (pID = msg.entry.pID) || b) := by
  have hclose : ¬ (msg.type = MessageType.eCloseProcess.code ∧ msg.close_process.pID = pID) := by
    rw [h]
    exact fun hk => absurd hk.1 (by decide)
  unfold registersMsg
  by_cases hpID : msg.entry.pID = pID
  · simp [h, hpID]
  · rw [if_neg (fun hk => hpID hk.2), if_neg hclose]
    simp [Ne.symm hpID]

theorem registersMsg_closeProcess (h : msg.type = MessageType.eCloseProcess.code) :
    registersMsg pID b msg = (decide (pID ≠ msg.close_process.pID) && b) := by
  have hentry : ¬ (msg.type = MessageType.eEntry.code ∧ msg.entry.pID = pID) := by
    rw [h]
    exact fun hk => absurd hk.1 (by decide)
  unfold registersMsg
  rw [if_neg hentry]
  by_cases hpID : msg.close_process.pID = pID
  · simp [h, hpID]
  · rw [if_neg (fun hk => hpID hk.2)]
    simp [Ne.symm hpID]

theorem registersMsg_other (hentry : msg.type ≠ MessageType.eEntry.code)
    (hclose : msg.type ≠ MessageType.eCloseProcess.code) : registersMsg pID b msg = b := by
  rw [registersMsg, if_neg (fun h => hentry h.1), if_neg (fun h => hclose h.1)]

theorem MessageType.code_of_ofCode {c : Int32} {type : MessageType}
    (h : MessageType.ofCode c = some type) : c = type.code := by
  have := List.find?_some h
  exact (of_decide_eq_true this).symm

/-- A message of a type that neither enters nor closes. -/
theorem registersMsg_of_type {type : MessageType} (h : msg.type = type.code)
    (hentry : type ≠ .eEntry) (hclose : type ≠ .eCloseProcess) : registersMsg pID b msg = b := by
  have hinj : ∀ {t t' : MessageType}, t.code = t'.code → t = t' := by
    intro t t' heq
    have := (MessageType.ofCode_code t).symm.trans ((congrArg _ heq).trans (MessageType.ofCode_code t'))
    exact Option.some.inj this
  apply registersMsg_other
  · rw [h]
    exact fun heq => hentry (hinj heq)
  · rw [h]
    exact fun heq => hclose (hinj heq)

/-- **The map follows the messages.** -/
theorem World.handle_registered {w w' : World} (h : w.handle msg = .ok (w', b)) :
    w'.registered pID = registersMsg pID (w.registered pID) msg := by
  cases World.handle_cases h with
  | entry ct szName htype =>
    rw [registersMsg_entry (MessageType.code_of_ofCode htype)]
    rfl
  | closeProcess htype =>
    rw [registersMsg_closeProcess (MessageType.code_of_ofCode htype)]
    rfl
  | threshold _ htype | exit _ htype | reportThread _ htype | reportProcess htype
  | closeThread htype =>
    rw [registersMsg_of_type (MessageType.code_of_ofCode htype) (by simp) (by simp)]
    rfl
  | rejected hentry hclose =>
    rw [registersMsg_other]
    · intro heq
      rw [heq, MessageType.ofCode_code] at hentry
      exact hentry rfl
    · intro heq
      rw [heq, MessageType.ofCode_code] at hclose
      exact hclose rfl

/-! ## What the calls of a process send -/

/-- The life of a pid, as its calls show it. -/
structure Life where
  /-- The process that has the pid has opened the queue. -/
  opened : Bool
  /-- The service was told of the pid, and not to forget it since. -/
  left : Bool

namespace Life

def init : Life := ⟨false, false⟩

def call (l : Life) : Op → Life
  | .start _ _ _ _ => ⟨true, true⟩
  | .closeProcess _ _ => if l.opened then { l with left := false } else l
  | .stop _ _ _ => l
  | .setThreshold _ _ _ => l
  | .reportProcess _ _ _ => l
  | .reportThread _ _ => l
  | .closeThread _ _ => l

def step (pID : pid_t) (l : Life) : Clients.Action → Life
  | .init p => if p = pID then { l with opened := false } else l
  | .call p op => if p = pID then l.call op else l
  | .terminate _ => l
  | .handle _ => l

end Life

/-- What became of a pid. -/
def lifeOf (pID : pid_t) (actions : List Clients.Action) : Life :=
  actions.foldl (Life.step pID) .init

theorem lifeOf_concat (actions : List Clients.Action) (a : Clients.Action) :
    lifeOf pID (actions ++ [a]) = (lifeOf pID actions).step pID a := by
  simp [lifeOf]

/-- The messages of one call, against what it does to the life of the pid. -/
structure Sends (c : Client) (op : Op) (c' : Client) (msgs : List PerfMessage) : Prop where
  sent : c'.sent = c.sent ++ msgs
  pID : c'.pID = c.pID
  queue : ∀ left, c'.queue = (Life.call ⟨c.queue, left⟩ op).opened
  own : ∀ left, msgs.foldl (registersMsg c.pID) left = (Life.call ⟨c.queue, left⟩ op).left
  others : ∀ p left, p ≠ c.pID → msgs.foldl (registersMsg p) left = left

/-- What the message of a call does to a pid: nothing, if it is another's. -/
theorem Op.Makes.registers {pID p : pid_t} {op : Op} {msg : PerfMessage} {left : Bool}
    (h : op.Makes pID msg) : registersMsg p left msg =
      if p = pID then (Life.call ⟨true, left⟩ op).left else left := by
  cases op with
  | start caller szName nThresholdInUS env =>
    obtain ⟨_, nTimeStamp, nUS, hmsg, hname⟩ := h
    obtain rfl := hname caller szName nThresholdInUS env rfl
    obtain ⟨htype, hentry⟩ := PerfMsgQueue.sent_entry hmsg
    rw [registersMsg_entry htype, hentry]
    by_cases hp : p = pID <;> simp [hp, Life.call]
  | closeProcess caller q =>
    obtain ⟨_, nTimeStamp, nUS, hmsg, -⟩ := h
    obtain ⟨htype, hclose⟩ := PerfMsgQueue.sent_closeProcess hmsg
    rw [registersMsg_closeProcess htype, hclose]
    by_cases hp : p = pID <;> simp [hp, Life.call]
  | stop _ _ _ | setThreshold _ _ _ | reportProcess _ _ _ | reportThread _ _ | closeThread _ _ =>
    rw [registersMsg_of_type h.type (by simp [Op.messageType]) (by simp [Op.messageType])]
    exact (ite_self left).symm

/-- **What a call sends is what it does to the life of its pid.** -/
theorem Client.step_sends {c c' : Client} {op : Op} (h : c.step op = .ok c') :
    ∃ msgs, Sends c op c' msgs := by
  obtain ⟨hpID, hqueue, hsent⟩ := Client.step_spec h
  have hopened : ∀ left, c'.queue = (Life.call ⟨c.queue, left⟩ op).opened := by
    intro left
    rw [hqueue]
    cases op with
    | closeProcess caller p => cases hopen : c.queue <;> simp [Op.isStart, Life.call]
    | _ => simp [Op.isStart, Life.call]
  rcases hsent with ⟨hno, hsent⟩ | ⟨hopen, msg, hmade, hsent⟩
  · -- without a queue nothing is sent, and the call is no start
    refine ⟨[], by rw [hsent, List.append_nil], hpID, hopened, fun left => ?_, fun _ _ _ => rfl⟩
    obtain ⟨hstart, hclosed⟩ := Bool.or_eq_false_iff.mp (hqueue.symm.trans hno)
    cases op with
    | start caller szName nThresholdInUS env => exact absurd hstart (by simp [Op.isStart])
    | closeProcess caller p => simp [Life.call, hclosed]
    | _ => rfl
  · refine ⟨[msg], hsent, hpID, hopened, fun left => ?_, fun p left hp => ?_⟩
    · rw [List.foldl_cons, List.foldl_nil, hmade.registers, if_pos rfl]
      cases op with
      | closeProcess caller p => rw [show c.queue = true from hqueue.symm.trans hopen]
      | _ => rfl
    · rw [List.foldl_cons, List.foldl_nil, hmade.registers, if_neg hp]

/-! ## Runs -/

namespace Clients

variable {actions : List Action} {s s' : State}

/-- What one step does. -/
inductive Happens (s : State) : Action → State → Prop where
  | started (pID : pid_t) (hnew : s.live pID = none) :
      Happens s (.init pID) (s.setLive pID (some (.PerfModuleInit pID)))
  | called (pID : pid_t) (op : Op) (p : ClientProcess) (client : Client)
      (msg : Option PerfMessage) (hlive : s.live pID = some p)
      (hstep : p.client.step op = .ok client) (hsent : client.sent = p.client.sent ++ msg.toList)
      (hmade : ∀ m ∈ msg.toList, op.Makes p.client.pID m) :
      Happens s (.call pID op)
        ({ s with queue := s.queue ++ msg.toList }.setLive pID (some { p with client := client }))
  | terminated (pID : pid_t) (p : ClientProcess) (hlive : s.live pID = some p) :
      Happens s (.terminate pID) (s.setLive pID none)
  | handled (env : Env) (msg : PerfMessage) (queue : List PerfMessage) (service : Service.State)
      (hqueue : s.queue = msg :: queue)
      (hservice : Service.step s.service ⟨msg, env⟩ = .ok service) :
      Happens s (.handle env) { s with queue := queue, service := service }

theorem step_happens {a : Action} (h : step s a = some s') : Happens s a s' := by
  cases a with
  | init pID =>
    simp only [step] at h
    split at h
    · exact absurd h (by simp)
    · next hnew =>
      obtain rfl := Option.some.inj h
      exact .started pID hnew
  | call pID op =>
    obtain ⟨p, hlive, h⟩ := Option.bind_eq_some_iff.mp h
    obtain ⟨p', hp', h⟩ := Option.bind_eq_some_iff.mp h
    obtain rfl := Option.some.inj h
    obtain ⟨client, hstep, hp'⟩ := bind_eq_ok.mp (toOption_eq_some.mp hp')
    obtain rfl := Except.ok.inj hp'
    obtain ⟨msg, hsent, hmade⟩ := Client.step_made hstep
    have hdrop : client.sent.drop p.client.sent.length = msg.toList := by
      rw [hsent, List.drop_left]
    rw [State.send, hdrop]
    exact .called pID op p client msg hlive hstep hsent hmade
  | terminate pID =>
    obtain ⟨p, hlive, h⟩ := Option.bind_eq_some_iff.mp h
    obtain ⟨p', hp', h⟩ := Option.bind_eq_some_iff.mp h
    obtain rfl := Option.some.inj h
    obtain ⟨m, -, hp'⟩ := bind_eq_ok.mp (toOption_eq_some.mp hp')
    obtain rfl := Except.ok.inj hp'
    -- it has sent nothing since
    rw [State.send, List.drop_length, List.append_nil]
    exact .terminated pID p hlive
  | handle env =>
    simp only [step] at h
    cases hqueue : s.queue with
    | nil => simp [hqueue] at h
    | cons msg queue =>
      simp only [hqueue] at h
      obtain ⟨service, hservice, h⟩ := Option.bind_eq_some_iff.mp h
      obtain rfl := Option.some.inj h
      exact .handled env msg queue service hqueue (toOption_eq_some.mp hservice)

/-- What was handled and what is in the queue register a pid exactly if its calls left it, and the
    process that has it knows of the queue what its calls say. -/
structure Follows (actions : List Action) (s : State) : Prop where
  self : ∀ {pID p}, s.live pID = some p →
    p.client.pID = pID ∧ p.client.queue = (lifeOf pID actions).opened
  service : ∃ handled w, Rep s.service.mem w ∧
    (∀ pID, w.registered pID = registers pID handled) ∧
    ∀ pID, registers pID (handled ++ s.queue) = (lifeOf pID actions).left

theorem Follows.init : Follows [] .init where
  self h := absurd h (by simp [State.init])
  service := ⟨[], .init, .init, fun _ => rfl, fun _ => rfl⟩

@[simp] theorem State.setLive_live (s : State) (pID q : pid_t) (p : Option ClientProcess) :
    (s.setLive pID p).live q = if q = pID then p else s.live q := rfl

theorem Follows.spawned {pID : pid_t} (h : Follows actions s) :
    Follows (actions ++ [.init pID]) (s.setLive pID (some (.PerfModuleInit pID))) := by
  obtain ⟨handled, w, hw, hreg, hleft⟩ := h.service
  constructor
  · intro q p hp
    rw [State.setLive_live] at hp
    rw [lifeOf_concat, Life.step]
    by_cases hq : q = pID
    · rw [if_pos hq] at hp
      obtain rfl := Option.some.inj hp
      rw [if_pos hq.symm]
      exact ⟨hq.symm, rfl⟩
    · rw [if_neg hq] at hp
      rw [if_neg (Ne.symm hq)]
      exact h.self hp
  · refine ⟨handled, w, hw, hreg, ?_⟩
    intro q
    show registers q (handled ++ s.queue) = _
    rw [hleft, lifeOf_concat, Life.step]
    split
    · rfl
    · rfl

theorem Follows.called {pID : pid_t} {op : Op} {p : ClientProcess} {client : Client}
    {msg : Option PerfMessage} (h : Follows actions s) (hlive : s.live pID = some p)
    (hstep : p.client.step op = .ok client) (hsent : client.sent = p.client.sent ++ msg.toList) :
    Follows (actions ++ [.call pID op])
      ({ s with queue := s.queue ++ msg.toList }.setLive pID (some { p with client := client })) := by
  obtain ⟨handled, w, hw, hreg, hleft⟩ := h.service
  obtain ⟨msgs, hsends⟩ := Client.step_sends hstep
  obtain rfl : msg.toList = msgs := List.append_cancel_left (hsent.symm.trans hsends.sent)
  obtain ⟨hpID, hopened⟩ := h.self hlive
  have hlife : Life.mk p.client.queue (lifeOf pID actions).left = lifeOf pID actions := by
    rw [hopened]
  constructor
  · intro q p₁ hp₁
    rw [State.setLive_live] at hp₁
    rw [lifeOf_concat, Life.step]
    by_cases hq : q = pID
    · rw [if_pos hq] at hp₁
      obtain rfl := Option.some.inj hp₁
      subst hq
      rw [if_pos rfl]
      refine ⟨hsends.pID.trans hpID, ?_⟩
      rw [← hlife]
      exact hsends.queue _
    · rw [if_neg hq] at hp₁
      rw [if_neg (Ne.symm hq)]
      exact h.self hp₁
  · refine ⟨handled, w, hw, hreg, ?_⟩
    intro q
    show registers q (handled ++ (s.queue ++ msg.toList)) = _
    rw [← List.append_assoc, registers_append, hleft, lifeOf_concat, Life.step]
    by_cases hq : pID = q
    · subst hq
      rw [if_pos rfl, ← hlife, ← hpID]
      exact hsends.own _
    · rw [if_neg hq]
      apply hsends.others
      rw [hpID]
      exact Ne.symm hq

/-- Nothing is sent when a process terminates. -/
theorem Follows.terminated {pID : pid_t} (h : Follows actions s) :
    Follows (actions ++ [.terminate pID]) (s.setLive pID none) := by
  obtain ⟨handled, w, hw, hreg, hleft⟩ := h.service
  constructor
  · intro q p₁ hp₁
    rw [State.setLive_live] at hp₁
    rw [lifeOf_concat]
    split at hp₁
    · exact absurd hp₁ (by simp)
    · exact h.self hp₁
  · refine ⟨handled, w, hw, hreg, ?_⟩
    intro q
    show registers q (handled ++ s.queue) = _
    rw [hleft, lifeOf_concat]
    rfl

theorem Follows.handled {env : Env} {msg : PerfMessage} {queue : List PerfMessage}
    {service : Service.State} (h : Follows actions s) (hqueue : s.queue = msg :: queue)
    (hservice : Service.step s.service ⟨msg, env⟩ = .ok service) :
    Follows (actions ++ [.handle env]) { s with queue := queue, service := service } := by
  obtain ⟨handled, w, hw, hreg, hleft⟩ := h.service
  have hsim : Service.Sim s.service (w, s.service.answers) := ⟨hw, rfl⟩
  obtain ⟨w', b, hhandle, hsim'⟩ := Service.step_handle hsim hservice
  constructor
  · intro q p hp
    rw [lifeOf_concat]
    exact h.self hp
  · refine ⟨handled ++ [msg], w', hsim'.rep, ?_, ?_⟩
    · intro q
      rw [World.handle_registered hhandle, hreg, registers_append]
      rfl
    · intro q
      have hq := hleft q
      rw [hqueue] at hq
      rw [lifeOf_concat, List.append_assoc]
      exact hq

theorem Follows.step {a : Action} (h : Follows actions s) (hs : Happens s a s') :
    Follows (actions ++ [a]) s' := by
  cases hs with
  | started pID _ => exact h.spawned
  | called pID op p client msg hlive hstep hsent _ => exact h.called hlive hstep hsent
  | terminated pID p _ => exact h.terminated
  | handled env msg queue service hqueue hservice => exact h.handled hqueue hservice

theorem run_follows (h : run actions = some s) : Follows actions s := by
  induction actions using List.reverseRecOn generalizing s with
  | nil =>
    obtain rfl := Option.some.inj h
    exact .init
  | append_singleton actions a ih =>
    rw [run, List.foldlM_append] at h
    obtain ⟨s₀, hs₀, hs⟩ := Option.bind_eq_some_iff.mp h
    have hstep : step s₀ a = some s := by simpa using hs
    exact (ih hs₀).step (step_happens hstep)

/-- Once the queue is empty the map has the pids that were left there. -/
theorem run_registered (h : run actions = some s) (hqueue : s.queue = []) (pID : pid_t) :
    s.service.mem.processMap.contains pID = (lifeOf pID actions).left := by
  obtain ⟨handled, w, hw, hreg, hleft⟩ := (run_follows h).service
  rw [hw.registered, hreg, ← hleft, hqueue, List.append_nil]

end Clients
end RdkPerf

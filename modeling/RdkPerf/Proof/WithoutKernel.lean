import RdkPerf.Proof.Abandoned
import RdkPerf.Proof.Settles

/-!
# One service, and the system without the kernel

While a service serves, and no other was started, the system is the one of `Model.Clients`: what is
in the kernel's queue is what is sent and not handled, and a turn of the loop is the handling of one
message (`refines_clients`). A process must make its first call while the queue has its name; one
that comes before the service is not connected, and nothing it does is ever seen.
-/

namespace RdkPerf

open Lib

/-! ## The loop -/

namespace RunLoop

variable {loop : State} {outcome : Outcome} {msg : PerfMessage}

/-- The types that stand for something else are not handled. -/
theorem body_special {type : MessageType} (h : msg.type = type.code)
    (htype : type = .eNoMessage ∨ type = .eExitQueue ∨ type = .eMaxType) :
    (body loop msg).handled = loop.handled := by
  unfold body
  rcases htype with rfl | rfl | rfl
  · have hexit : ¬ (msg.type = MessageType.eExitQueue.code ∨
        msg.type = MessageType.eMaxType.code) := by
      rw [h]
      decide
    rw [if_neg hexit, if_pos h]
    dsimp only
    split
    · rfl
    · rfl
  · rw [if_pos (Or.inl h)]
  · rw [if_pos (Or.inr h)]

/-- Where there is no message nothing is handled. -/
theorem step_handled (h : ∀ msg, outcome ≠ .message msg) :
    (step loop outcome).handled = loop.handled := by
  have hincomplete : (PerfMsgQueue.mq_receive loop.errno outcome).nRead ≠
      UInt64.ofNat PERF_MSG_SIZE := by
    cases outcome with
    | message msg => exact absurd rfl (h msg)
    | short bytes hlen => exact incomplete_short hlen
    | timedOut =>
      show (-1 : UInt64) ≠ UInt64.ofNat PERF_MSG_SIZE
      decide
    | failed errnum hne =>
      show (-1 : UInt64) ≠ UInt64.ofNat PERF_MSG_SIZE
      decide
  cases hrun : loop.bContinue with
  | false => rw [step_stopped hrun]
  | true =>
    rw [step_eq hrun, receive_incomplete hincomplete]
    dsimp only
    split
    · exact body_special (type_setType .eNoMessage) (Or.inl rfl)
    · exact body_special (type_setType .eMaxType) (Or.inr (Or.inr rfl))

/-- The types that are not a message's have no sender. -/
theorem sender_of_type {type : MessageType} (h : msg.type = type.code)
    (htype : type = .eNoMessage ∨ type = .eExitQueue ∨ type = .eMaxType) : msg.sender = none := by
  rw [PerfMessage.sender, PerfMessage.threadOf, PerfMessage.processOf, h, MessageType.ofCode_code]
  rcases htype with rfl | rfl | rfl
  · rfl
  · rfl
  · rfl

/-- A message that was sent is handled. -/
theorem step_sent (hrun : loop.bContinue = true) (h : msg.IsSent) :
    (step loop (.message msg)).handled = loop.handled ++ [msg] := by
  obtain ⟨self, type, name, nTimeStamp, nUS, hmsg, htype⟩ := h
  have hsender := sent_sender hmsg htype
  have hnot : ∀ {type : MessageType}, type = .eNoMessage ∨ type = .eExitQueue ∨ type = .eMaxType →
      msg.type ≠ type.code := by
    intro type htype hcode
    exact absurd (hsender.symm.trans (sender_of_type hcode htype)) (by simp)
  rw [step_eq hrun, receive_message]
  have hexit : ¬ (msg.type = MessageType.eExitQueue.code ∨
      msg.type = MessageType.eMaxType.code) := by
    rintro (hexit | hmax)
    · exact hnot (Or.inr (Or.inl rfl)) hexit
    · exact hnot (Or.inr (Or.inr rfl)) hmax
  rw [body, if_neg hexit, if_neg (hnot (Or.inl rfl))]

end RunLoop

namespace Deployment

variable {s s' : State} {a : Action} {actions : List Action} {pID : pid_t} {q : Nat}

/-- A turn without a message handles nothing. -/
theorem turn_waited {loop loop' : RunLoop.State} {service service' : Service.State}
    {outcome : Outcome} {env : Env} (hnone : ∀ msg, outcome ≠ .message msg)
    (h : Main.turn loop service outcome env = .ok (loop', service')) : service' = service := by
  unfold Main.turn at h
  dsimp only at h
  rw [RunLoop.step_handled hnone, List.drop_length] at h
  exact (Prod.mk.inj (Except.ok.inj h)).2.symm

/-- A turn with a message handles it. -/
theorem turn_received {loop loop' : RunLoop.State} {service service' : Service.State}
    {msg : PerfMessage} {env : Env} (hrun : loop.bContinue = true) (hsent : msg.IsSent)
    (h : Main.turn loop service (.message msg) env = .ok (loop', service')) :
    Service.step service ⟨msg, env⟩ = .ok service' := by
  unfold Main.turn at h
  dsimp only at h
  rw [RunLoop.step_sent hrun hsent, List.drop_left] at h
  obtain ⟨service₁, hstep, h⟩ := bind_eq_ok.mp h
  obtain ⟨-, rfl⟩ := Prod.mk.inj (Except.ok.inj h)
  obtain ⟨service₂, hservice, hnil⟩ := foldlM_cons_ok.mp hstep
  obtain rfl := Except.ok.inj hnil
  exact hservice

/-! ## The system without the kernel -/

/-- What is left of an action when the service serves and nobody looks at the kernel. -/
def Action.clients : Action → List Clients.Action
  | .receive _ (.message env) => [.handle env]
  | .init pID => [.init pID]
  | .call pID op => [.call pID op]
  | .terminate pID => [.terminate pID]
  | .spawn _ => []
  | .advance _ _ => []
  | .receive _ .timedOut => []
  | .receive _ (.failed _ _) => []
  | .kill _ => []

/-- A process makes its first call while the queue has its name. -/
def Opens (actions : List Action) : Prop :=
  ∀ pre pID op post s process, actions = pre ++ .call pID op :: post → run pre = some s →
    s.live pID = some process → process.client.queue = false → op.isStart = true →
      s.kernel.named ≠ none

/-- The system without the kernel has come as far, with this queue and this service. -/
structure Reaches (actions : List Action) (s : State) (queue : List PerfMessage)
    (service : Service.State) (t : Clients.State) : Prop where
  run : Clients.run (actions.flatMap Action.clients) = some t
  queue : t.queue = queue
  service : t.service = service
  live : ∀ pID, t.live pID = (s.live pID).map fun process => ⟨process.client, .init⟩

namespace Reaches

variable {queue : List PerfMessage} {service : Service.State} {t : Clients.State}

theorem flatMap_concat : (actions ++ [a]).flatMap Action.clients =
    actions.flatMap Action.clients ++ a.clients := by simp

/-- A step of the kernel or of `main` is none of the system without them. -/
theorem silent (h : Reaches actions s queue service t) (ha : a.clients = [])
    (hlive : s'.live = s.live) : Reaches (actions ++ [a]) s' queue service t := by
  refine ⟨?_, h.queue, h.service, ?_⟩
  · rw [flatMap_concat, ha, List.append_nil, h.run]
  · rw [hlive]
    exact h.live

theorem step {b : Clients.Action} {t' : Clients.State} {queue' : List PerfMessage}
    {service' : Service.State} (h : Reaches actions s queue service t) (ha : a.clients = [b])
    (ht : Clients.step t b = some t') (hqueue : t'.queue = queue') (hservice : t'.service = service')
    (hlive : ∀ p, t'.live p = (s'.live p).map fun process => ⟨process.client, .init⟩) :
    Reaches (actions ++ [a]) s' queue' service' t' := by
  refine ⟨?_, hqueue, hservice, hlive⟩
  rw [flatMap_concat, ha]
  exact Clients.run_concat.mpr ⟨t, h.run, ht⟩

theorem started (h : Reaches actions s queue service t) (hnew : s.live pID = none) :
    ∃ t', Reaches (actions ++ [.init pID]) (s.setLive pID (some ⟨.init pID, none⟩)) queue service
      t' := by
  have hnew' : t.live pID = none := by rw [h.live, hnew]; rfl
  have hstep : Clients.step t (.init pID) = some (t.setLive pID (some (.PerfModuleInit pID))) := by
    simp only [Clients.step, hnew']
  refine ⟨_, h.step rfl hstep h.queue h.service fun p => ?_⟩
  rw [Clients.State.setLive_live, State.setLive_live, h.live]
  split
  · rfl
  · rfl

theorem terminated {process : Process} (h : Reaches actions s queue service t)
    (hlive : s.live pID = some process) :
    ∃ t', Reaches (actions ++ [.terminate pID]) (s.setLive pID none) queue service t' := by
  have hlive' : t.live pID = some ⟨process.client, .init⟩ := by rw [h.live, hlive]; rfl
  have hremove : RDKPerf_RemoveProcess Mem.init process.client.pID = .ok Mem.init := by
    unfold RDKPerf_RemoveProcess
    rw [Service.find_unregistered .init rfl]
    rfl
  have hstep : Clients.step t (.terminate pID) = some ((t.setLive pID none).send
      ⟨process.client, .init⟩ ⟨process.client, .init⟩) := by
    simp [Clients.step, hlive', ClientProcess.PerfModuleTerminate, hremove, Except.toOption]
  refine ⟨_, h.step rfl hstep ?_ h.service fun p => ?_⟩
  · show t.queue ++ process.client.sent.drop process.client.sent.length = queue
    rw [List.drop_length, List.append_nil, h.queue]
  · show (if p = pID then none else t.live p) = _
    rw [State.setLive_live, h.live]
    split
    · rfl
    · rfl

theorem called {process : Process} {client : Client} {op : Op} {msg : Option PerfMessage}
    (kernel : Kernel) (m_queue : Option Nat) (h : Reaches actions s queue service t)
    (hlive : s.live pID = some process) (hstep : process.client.step op = .ok client)
    (hsent : client.sent = process.client.sent ++ msg.toList) :
    ∃ t', Reaches (actions ++ [.call pID op])
      ({ s with kernel := kernel }.setLive pID (some ⟨client, m_queue⟩)) (queue ++ msg.toList)
      service t' := by
  have hlive' : t.live pID = some ⟨process.client, .init⟩ := by rw [h.live, hlive]; rfl
  have ht : Clients.step t (.call pID op) = some ((t.setLive pID (some ⟨client, .init⟩)).send
      ⟨process.client, .init⟩ ⟨client, .init⟩) := by
    simp [Clients.step, hlive', ClientProcess.step, hstep, Except.toOption]
  refine ⟨_, h.step rfl ht ?_ h.service fun p => ?_⟩
  · show t.queue ++ client.sent.drop process.client.sent.length = _
    rw [hsent, List.drop_left, h.queue]
  · show (if p = pID then some (ClientProcess.mk client .init) else t.live p) = _
    rw [State.setLive_live, h.live]
    split
    · rfl
    · rfl

theorem received {msg : PerfMessage} {env : Env} {rest : List PerfMessage}
    {service' : Service.State} {kernel : Kernel} {main : Main}
    (h : Reaches actions s (msg :: rest) service t)
    (hservice : Service.step service ⟨msg, env⟩ = .ok service') :
    ∃ t', Reaches (actions ++ [.receive pID (.message env)]) (s.setService pID kernel main) rest
      service' t' := by
  have ht : Clients.step t (.handle env) = some { t with queue := rest, service := service' } := by
    simp [Clients.step, h.queue, h.service, hservice, Except.toOption]
  exact ⟨_, h.step rfl ht rfl rfl h.live⟩

end Reaches

/-- There is no queue yet, and so no process has made a call that opens it. -/
structure Before (actions : List Action) (s : State) : Prop where
  named : s.kernel.named = none
  unopened : ∀ {p process}, s.live p = some process → process.client.queue = false
  reaches : ∃ t, Reaches actions s [] .init t

/-- There is one, and whoever has opened it is connected to it. -/
structure During (actions : List Action) (s : State) (q : Nat) (service : Service.State) : Prop where
  named : s.kernel.named = some q
  opened : ∀ {p process}, s.live p = some process → process.client.queue = true →
    process.m_queue = some q
  reaches : ∃ t, Reaches actions s (s.kernel.messages q) service t

/-- As far as the one service has come. -/
def Follows (actions : List Action) (s : State) : Option Main → Prop
  | some (.serving q _ service) => During actions s q service
  | some .exited => True
  | some .checking => Before actions s
  | some .unlinking => Before actions s
  | some .opening => Before actions s
  | none => Before actions s

/-- A client without a queue has sent nothing. -/
theorem client_step_none {c c' : Client} {op : Op} (h : c.step op = .ok c')
    (hqueue : c'.queue = false) : c'.sent = c.sent := by
  rcases (Client.step_spec h).sent with ⟨-, hsent⟩ | ⟨hopen, -⟩
  · exact hsent
  · exact absurd hopen (by simp [hqueue])

theorem silent_of_unopened {process : Process} {client : Client} {op : Op} {msg : Option PerfMessage}
    (hstep : process.client.step op = .ok client)
    (hsent : client.sent = process.client.sent ++ msg.toList) (hqueue : client.queue = false) :
    msg = none := by
  have hnil : msg.toList = [] := by
    have hsame := client_step_none hstep hqueue
    rw [hsent] at hsame
    exact List.append_right_eq_self.mp hsame
  cases msg with
  | none => rfl
  | some m => exact absurd hnil (by simp)

section Calls

variable {process : Process} {client : Client} {op : Op} {msg : Option PerfMessage} {kernel : Kernel}
  {service : Service.State}

theorem Before.called (h : Before actions s) (hlive : s.live pID = some process)
    (hstep : process.client.step op = .ok client)
    (hsent : client.sent = process.client.sent ++ msg.toList)
    (hsilent : msg = none → kernel = s.kernel) (hopens : op.isStart = true → s.kernel.named ≠ none) :
    Before (actions ++ [.call pID op]) ({ s with kernel := kernel }.setLive pID
      (some ⟨client, process.connected s.kernel client⟩)) := by
  have hqueue : client.queue = false := by
    rw [(Client.step_spec hstep).queue, h.unopened hlive, Bool.or_false]
    cases hstart : op.isStart with
    | true => exact absurd h.named (hopens hstart)
    | false => rfl
  have hnone := silent_of_unopened hstep hsent hqueue
  obtain ⟨t, ht⟩ := h.reaches
  obtain ⟨t', ht'⟩ := ht.called kernel (process.connected s.kernel client)
    hlive hstep hsent
  refine ⟨?_, ?_, ?_⟩
  · show kernel.named = none
    rw [hsilent hnone, h.named]
  · intro p process' hp
    rw [State.setLive_live] at hp
    split at hp
    · obtain rfl := Option.some.inj hp
      exact hqueue
    · exact h.unopened hp
  · refine ⟨t', ?_⟩
    rw [hnone] at ht'
    exact ht'

theorem During.called (h : During actions s q service) (hlive : s.live pID = some process)
    (hstep : process.client.step op = .ok client)
    (hsent : client.sent = process.client.sent ++ msg.toList)
    (hsilent : msg = none → kernel = s.kernel)
    (hsend : ∀ m, msg = some m →
      mq_send s.kernel (process.connected s.kernel client) m = some kernel) :
    During (actions ++ [.call pID op]) ({ s with kernel := kernel }.setLive pID
      (some ⟨client, process.connected s.kernel client⟩)) q service := by
  -- whoever has a queue after the call is connected to this one
  have hconnected : client.queue = true → process.connected s.kernel client = some q := by
    intro hqueue
    unfold Process.connected
    split
    · next hbefore => exact h.opened hlive hbefore
    · exact h.named
  obtain ⟨t, ht⟩ := h.reaches
  obtain ⟨t', ht'⟩ := ht.called kernel (process.connected s.kernel client)
    hlive hstep hsent
  have hmessages : kernel.messages q = s.kernel.messages q ++ msg.toList := by
    cases msg with
    | none =>
      rw [hsilent rfl]
      simp
    | some m =>
      have hqueue : client.queue = true := by
        rw [← Bool.not_eq_false]
        intro hno
        exact absurd (silent_of_unopened hstep hsent hno) (by simp)
      rw [mq_send_messages (hsend m rfl), hconnected hqueue, if_pos rfl]
      rfl
  refine ⟨?_, ?_, ?_⟩
  · show kernel.named = some q
    apply called_kernel (P := fun k => k.named = some q) h.named hsilent hsend
    intro m k hk
    rw [mq_send_named hk, h.named]
  · intro p process' hp hqueue
    rw [State.setLive_live] at hp
    split at hp
    · obtain rfl := Option.some.inj hp
      exact hconnected hqueue
    · exact h.opened hp hqueue
  · refine ⟨t', ?_⟩
    show Reaches _ _ (kernel.messages q) service t'
    rw [hmessages]
    exact ht'

end Calls

/-- One step of a system with one service. -/
theorem Follows.step {service : pid_t} (h : Follows actions s (s.services service))
    (hs : Happens s a s') (hone : ∀ p main, s.services p = some main → p = service)
    (hspawn : ∀ p, a = .spawn p → p = service)
    (hopens : ∀ pID op process, a = .call pID op → s.live pID = some process →
      process.client.queue = false → op.isStart = true → s.kernel.named ≠ none) :
    Follows (actions ++ [a]) s' (s'.services service) := by
  -- a step of `main` leaves the processes alone
  have hbefore : ∀ {kernel main}, Before actions s → a.clients = [] → kernel.named = none →
      Before (actions ++ [a]) (s.setService service kernel main) := by
    intro kernel main hb ha hnamed
    obtain ⟨t, ht⟩ := hb.reaches
    exact ⟨hnamed, hb.unopened, t, ht.silent ha rfl⟩
  cases hs with
  | spawned pID hnew =>
    obtain rfl := hspawn pID rfl
    rw [hnew] at h
    rw [State.setService_services, if_pos rfl]
    exact hbefore h rfl h.named
  | duplicate pID errno hmain hnamed =>
    obtain rfl := hone pID _ hmain
    rw [State.setService_services, if_pos rfl]
    trivial
  | alone pID errno hmain hnamed =>
    obtain rfl := hone pID _ hmain
    rw [hmain] at h
    rw [State.setService_services, if_pos rfl]
    exact hbefore h rfl h.named
  | unlinked pID errno hmain =>
    obtain rfl := hone pID _ hmain
    rw [hmain] at h
    rw [State.setService_services, if_pos rfl]
    exact hbefore h rfl rfl
  | opened pID errno hmain =>
    obtain rfl := hone pID _ hmain
    rw [hmain] at h
    rw [State.setService_services, if_pos rfl]
    have hb : Before actions s := h
    obtain ⟨t, ht⟩ := hb.reaches
    refine ⟨Channels.create_named _ _, ?_, t, ?_⟩
    · intro p process hp hqueue
      exact absurd hqueue (by simp [hb.unopened hp])
    · rw [State.setService_kernel, Channels.create_messages, Channels.create_empty _ hb.named]
      exact ht.silent rfl rfl
  | released pID errno q loop service' hmain hleft =>
    obtain rfl := hone pID _ hmain
    rw [State.setService_services, if_pos rfl]
    trivial
  | received pID env q loop loop' service₀ service' msg kernel hmain hrun hmsg hturn =>
    obtain rfl := hone pID _ hmain
    rw [hmain] at h
    rw [State.setService_services, if_pos rfl]
    have hd : During actions s q service₀ := h
    obtain ⟨hnamed, hmessages, -⟩ := Channels.receive_eq_some hmsg
    obtain ⟨t, ht⟩ := hd.reaches
    rw [hmessages] at ht
    have hsent : msg.IsSent := Clients.run_queue_sent ht.run (by rw [ht.queue]; simp)
    obtain ⟨t', ht'⟩ := ht.received (turn_received hrun hsent hturn)
    exact ⟨hnamed.trans hd.named, hd.opened, t', ht'⟩
  | waited pID arrival q loop loop' service₀ service' outcome hmain hrun hempty hnone hturn harrival =>
    obtain rfl := hone pID _ hmain
    rw [hmain] at h
    rw [State.setService_services, if_pos rfl]
    have hd : During actions s q service₀ := h
    obtain rfl := turn_waited hnone hturn
    obtain ⟨t, ht⟩ := hd.reaches
    have ha : (Action.receive pID arrival).clients = [] := by
      cases arrival with
      | message env => exact absurd rfl (harrival env)
      | timedOut => rfl
      | failed errnum hne => rfl
    exact ⟨hd.named, hd.opened, t, ht.silent ha rfl⟩
  | killed pID main hmain =>
    obtain rfl := hone pID _ hmain
    rw [State.setService_services, if_pos rfl]
    trivial
  | started pID hnew =>
    show Follows _ _ (s.services service)
    have hlive : ∀ {p process}, (s.setLive pID (some ⟨.init pID, none⟩)).live p = some process →
        process.client.queue = true → s.live p = some process := by
      intro p process hp hqueue
      rw [State.setLive_live] at hp
      split at hp
      · obtain rfl := Option.some.inj hp
        exact absurd hqueue (by simp [Client.init])
      · exact hp
    have hbefore : Before actions s →
        Before (actions ++ [.init pID]) (s.setLive pID (some ⟨.init pID, none⟩)) := by
      intro hb
      obtain ⟨t, ht⟩ := hb.reaches
      refine ⟨hb.named, ?_, ht.started hnew⟩
      intro p process hp
      rw [Bool.eq_false_iff]
      intro hqueue
      exact absurd hqueue (by simp [hb.unopened (hlive hp hqueue)])
    cases hmain : s.services service with
    | none =>
      rw [hmain] at h
      exact hbefore h
    | some main =>
      rw [hmain] at h
      cases main with
      | serving q loop service₀ =>
        have hd : During actions s q service₀ := h
        obtain ⟨t, ht⟩ := hd.reaches
        exact ⟨hd.named, fun hp hqueue => hd.opened (hlive hp hqueue) hqueue, ht.started hnew⟩
      | exited => trivial
      | checking => exact hbefore h
      | unlinking => exact hbefore h
      | opening => exact hbefore h
  | called pID op process client msg kernel hlive hstep hsent hsilent hsend =>
    show Follows _ _ (s.services service)
    cases hmain : s.services service with
    | none =>
      rw [hmain] at h
      exact Before.called h hlive hstep hsent hsilent (hopens pID op process rfl hlive (h.unopened hlive))
    | some main =>
      rw [hmain] at h
      cases main with
      | serving q loop service₀ => exact During.called h hlive hstep hsent hsilent hsend
      | exited => trivial
      | checking | unlinking | opening =>
        exact Before.called h hlive hstep hsent hsilent
          (hopens pID op process rfl hlive (h.unopened hlive))
  | terminated pID process hlive =>
    show Follows _ _ (s.services service)
    have hlive' : ∀ {p process'}, (s.setLive pID none).live p = some process' →
        s.live p = some process' := by
      intro p process' hp
      rw [State.setLive_live] at hp
      split at hp
      · exact absurd hp (by simp)
      · exact hp
    have hbefore : Before actions s → Before (actions ++ [.terminate pID]) (s.setLive pID none) := by
      intro hb
      obtain ⟨t, ht⟩ := hb.reaches
      exact ⟨hb.named, fun hp => hb.unopened (hlive' hp), ht.terminated hlive⟩
    cases hmain : s.services service with
    | none =>
      rw [hmain] at h
      exact hbefore h
    | some main =>
      rw [hmain] at h
      cases main with
      | serving q loop service₀ =>
        have hd : During actions s q service₀ := h
        obtain ⟨t, ht⟩ := hd.reaches
        exact ⟨hd.named, fun hp => hd.opened (hlive' hp), ht.terminated hlive⟩
      | exited => trivial
      | checking => exact hbefore h
      | unlinking => exact hbefore h
      | opening => exact hbefore h

theorem run_follows {service : pid_t} (h : run actions = some s)
    (hone : ∀ p, .spawn p ∈ actions → p = service) (hopens : Opens actions) :
    Follows actions s (s.services service) := by
  induction actions using List.reverseRecOn generalizing s with
  | nil =>
    obtain rfl := Option.some.inj h
    refine ⟨rfl, ?_, .init, rfl, rfl, rfl, fun p => rfl⟩
    intro p process hp
    exact absurd hp (by simp [State.init])
  | append_singleton actions a ih =>
    obtain ⟨s₀, hs₀, hstep⟩ := run_concat.mp h
    have hone₀ : ∀ p, .spawn p ∈ actions → p = service := fun p hp =>
      hone p (List.mem_append_left _ hp)
    have hopens₀ : Opens actions := fun pre pID op post s process hsplit =>
      hopens pre pID op (post ++ [a]) s process (by rw [hsplit]; simp)
    refine (ih hs₀ hone₀ hopens₀).step (step_happens hstep) (services_of_single hone₀ hs₀) ?_ ?_
    · rintro p rfl
      exact hone p (by simp)
    · rintro pID op process rfl
      exact hopens actions pID op [] s₀ process rfl hs₀

/-- **With one service, the kernel does not matter.** While it serves, the queue of the kernel, the
    service and the processes are those of the system that has no kernel. -/
theorem refines_clients {actions : List Action} {s : State} {service : pid_t} {q : Nat}
    {loop : RunLoop.State} {trees : Service.State} (h : run actions = some s)
    (hone : ∀ p, .spawn p ∈ actions → p = service) (hopens : Opens actions)
    (hserving : s.services service = some (.serving q loop trees)) :
    ∃ t, Clients.run (actions.flatMap Action.clients) = some t ∧
      t.queue = s.kernel.messages q ∧ t.service = trees ∧
      ∀ pID, t.live pID = (s.live pID).map fun process => ⟨process.client, .init⟩ := by
  have hF := run_follows h hone hopens
  rw [hserving] at hF
  obtain ⟨t, ht⟩ := hF.reaches
  exact ⟨t, ht.run, ht.queue, ht.service, ht.live⟩

/-- A process makes a call while the service serves, and the service handles its start. -/
def servedOnce : List Action :=
  connectedOnce ++ [.receive 1 (.message {}), .call 42 (.stop threadA 0 { timeStamp := 5 })]

theorem servedOnce_run : ∃ s loop trees, run servedOnce = some s ∧
    s.services 1 = some (.serving 0 loop trees) := by
  obtain ⟨s, hs, hread⟩ := Option.bind_eq_some_iff.mp
    (show (run servedOnce).bind (fun s => (s.services 1).map Main.m_queue) =
      some (some 0) by decide)
  obtain ⟨main, hmain, hread⟩ := Option.map_eq_some_iff.mp hread
  obtain ⟨loop, service, rfl⟩ := Main.serving_of_m_queue hread
  exact ⟨s, loop, service, hs, hmain⟩

theorem servedOnce_single : ∀ p, .spawn p ∈ servedOnce → p = 1 := by
  simp [servedOnce, connectedOnce]

theorem servedOnce_opens : Opens servedOnce := by
  have hall : ∀ pre a post, servedOnce = pre ++ a :: post → ∀ pID op s process,
      a = .call pID op → run pre = some s → s.live pID = some process →
        process.client.queue = false → op.isStart = true → s.kernel.named ≠ none := by
    rw [servedOnce, connectedOnce]
    simp only [List.cons_append, List.nil_append]
    repeat rw [forall_places_cons]
    refine ⟨?_, ?_, ?_, ?_, ?_, ?_, ?_, ?_, forall_places_nil⟩
    all_goals
      intro pID op s process hcall hrun hlive hqueue hstart
      cases hcall
    · have hnamed : (run [.spawn 1, .advance 1 0, .advance 1 0, .advance 1 0, .init 42]).map
          (·.kernel.named) = some (some 0) := by decide
      rw [hrun] at hnamed
      have hnamed : s.kernel.named = some 0 := Option.some.inj hnamed
      simp [hnamed]
    · exact absurd hstart (by simp [Op.isStart])
  exact fun pre pID op post s process hsplit => hall pre _ post hsplit pID op s process rfl

theorem servedOnce_refines : ∃ s trees t, run servedOnce = some s ∧
    Clients.run (servedOnce.flatMap Action.clients) = some t ∧
      t.queue = s.kernel.messages 0 ∧ t.service = trees ∧
      ∀ pID, t.live pID = (s.live pID).map fun process => ⟨process.client, .init⟩ := by
  obtain ⟨s, loop, trees, hs, hserving⟩ := servedOnce_run
  obtain ⟨t, ht⟩ := refines_clients hs servedOnce_single servedOnce_opens hserving
  exact ⟨s, trees, t, hs, ht⟩

end Deployment
end RdkPerf

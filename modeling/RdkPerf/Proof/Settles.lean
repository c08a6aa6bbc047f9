import RdkPerf.Proof.DeepReports
import RdkPerf.Proof.ManyClients

/-!
# The service settles

What is in the queue was sent by a client, whatever the clients did, and the service can handle what
a client sends, so long as every start names its call. So it can always empty the queue, and then
it is behind no more: it has the trees of the in-process build (`Clients.settles`). It keeps to its
line buffers exactly where no report it handles is too deep.
-/

namespace RdkPerf

open Lib

namespace Clients

variable {actions : List Action} {s s' : State}

/-- The call a process makes. -/
def Action.op : Action → Option Op
  | .call _ op => some op
  | _ => none

theorem step_queue {a : Action} (hs : step s a = some s') :
    ∀ msg ∈ s'.queue, msg ∈ s.queue ∨ ∃ op pID, a.op = some op ∧ op.Makes pID msg := by
  intro msg hmsg
  cases step_happens hs with
  | started pID _ => exact Or.inl hmsg
  | called pID op p client sent _ _ _ hmade =>
    rcases List.mem_append.mp hmsg with hold | hnew
    · exact Or.inl hold
    · exact Or.inr ⟨op, _, rfl, hmade msg hnew⟩
  | terminated pID p _ => exact Or.inl hmsg
  | handled env first queue service hqueue _ =>
    rw [hqueue]
    exact Or.inl (List.mem_cons_of_mem _ hmsg)

/-- Whatever the processes do, what is in the queue was made for a call. -/
theorem run_queue (h : run actions = some s) : ∀ msg ∈ s.queue, ∃ a ∈ actions, ∃ op pID,
    a.op = some op ∧ op.Makes pID msg := by
  induction actions using List.reverseRecOn generalizing s with
  | nil =>
    obtain rfl := Option.some.inj h
    simp [State.init]
  | append_singleton actions a ih =>
    obtain ⟨s₀, hs₀, hstep⟩ := run_concat.mp h
    intro msg hmsg
    rcases step_queue hstep msg hmsg with hold | hnew
    · obtain ⟨a', ha', hmade⟩ := ih hs₀ msg hold
      exact ⟨a', List.mem_append_left _ ha', hmade⟩
    · exact ⟨a, List.mem_append_right _ (List.mem_singleton_self a), hnew⟩

theorem run_queue_sent (h : run actions = some s) {msg : PerfMessage} (hmsg : msg ∈ s.queue) :
    msg.IsSent := by
  obtain ⟨a, -, op, pID, -, hmade⟩ := run_queue h msg hmsg
  exact hmade.isSent.1

theorem run_queue_named (h : run actions = some s)
    (hnames : ∀ a ∈ actions, ∀ op, a.op = some op → op.named) : ∀ msg ∈ s.queue, msg.Named := by
  intro msg hmsg
  obtain ⟨a, ha, op, pID, hop, hmade⟩ := run_queue h msg hmsg
  exact hmade.named_iff.mpr (hnames a ha op hop)

/-- The service can handle the next message. -/
theorem run_handle {msg : PerfMessage} {queue : List PerfMessage} (h : run actions = some s)
    (hqueue : s.queue = msg :: queue) (hname : msg.Named) (env : Env) :
    ∃ s', run (actions ++ [.handle env]) = some s' ∧ s'.queue = queue := by
  obtain ⟨-, w, hw, -⟩ := (run_follows h).service
  have hsim : Service.Sim s.service (w, s.service.answers) := ⟨hw, rfl⟩
  obtain ⟨w', b, hhandle⟩ := World.handle_sent (run_queue_sent h (by simp [hqueue])) hname w
  obtain ⟨service, hservice, -⟩ := Service.handle_step (d := ⟨msg, env⟩) hsim hhandle
  refine ⟨{ s with queue := queue, service := service }, run_concat.mpr ⟨s, h, ?_⟩, rfl⟩
  rw [step, hqueue]
  simp only [hservice, Except.toOption, Option.bind_eq_bind, Option.bind_some]

theorem run_drain {envs : List Env} (h : run actions = some s)
    (hnames : ∀ msg ∈ s.queue, msg.Named) (hlen : envs.length = s.queue.length) :
    ∃ s', run (actions ++ envs.map .handle) = some s' ∧ s'.queue = [] := by
  induction envs generalizing actions s with
  | nil => exact ⟨s, by simpa using h, List.eq_nil_of_length_eq_zero hlen.symm⟩
  | cons env envs ih =>
    obtain ⟨msg, queue, hqueue⟩ := List.exists_cons_of_length_eq_add_one hlen.symm
    rw [hqueue] at hnames
    obtain ⟨s₁, hs₁, hrest⟩ := run_handle h hqueue (hnames msg List.mem_cons_self) env
    obtain ⟨s', hs', hnil⟩ := ih hs₁
      (fun msg hmsg => hnames msg (List.mem_cons_of_mem _ (hrest ▸ hmsg)))
      (by simpa [hqueue, hrest] using hlen)
    exact ⟨s', by simpa using hs', hnil⟩

/-- Only a handled message changes what the service has. -/
theorem step_service {a : Action} (hs : step s a = some s') :
    ((∀ env, a ≠ .handle env) ∧ s'.service = s.service) ∨
      ∃ env msg queue, a = .handle env ∧ s.queue = msg :: queue ∧
        Service.step s.service ⟨msg, env⟩ = .ok s'.service := by
  cases step_happens hs with
  | started _ _ | called _ _ _ _ _ _ _ _ _ | terminated _ _ _ => exact Or.inl ⟨by simp, rfl⟩
  | handled env msg queue service hqueue hservice =>
    exact Or.inr ⟨env, msg, queue, rfl, hqueue, hservice⟩

/-- Each report the service handles is shallow where it handles it. -/
def HandlesShallow (actions : List Action) : Prop :=
  ∀ pre a post, actions = pre ++ a :: post → ∀ env s msg queue, a = .handle env →
    run pre = some s → s.queue = msg :: queue → msg.Shallow s.service.mem.view

/-- What the service has was made by handling messages. -/
theorem run_service (h : run actions = some s) : ∃ ds, Service.run ds = .ok s.service := by
  induction actions using List.reverseRecOn generalizing s with
  | nil =>
    obtain rfl := Option.some.inj h
    exact ⟨[], rfl⟩
  | append_singleton actions a ih =>
    obtain ⟨s₀, hs₀, hstep⟩ := run_concat.mp h
    obtain ⟨ds, hds⟩ := ih hs₀
    rcases step_service hstep with ⟨-, hsame⟩ | ⟨env, msg, queue, -, -, hservice⟩
    · exact ⟨ds, by rw [hsame, hds]⟩
    · have hrun : Service.run (ds ++ [⟨msg, env⟩]) = .ok s.service :=
        foldlM_concat_ok.mpr ⟨s₀.service, hds, hservice⟩
      exact ⟨_, hrun⟩

/-- **The service keeps to its line buffers** exactly where what it handles is shallow. -/
theorem run_linesFit_iff (h : run actions = some s) :
    s.service.mem.LinesFit ↔ HandlesShallow actions := by
  induction actions using List.reverseRecOn generalizing s with
  | nil =>
    obtain rfl := Option.some.inj h
    refine iff_of_true (fun line hline => absurd hline List.not_mem_nil) ?_
    intro pre a post hsplit
    exact absurd hsplit (by simp)
  | append_singleton actions a ih =>
    obtain ⟨s₀, hs₀, hstep⟩ := run_concat.mp h
    unfold HandlesShallow
    rw [forall_places_concat]
    have hih := ih hs₀
    unfold HandlesShallow at hih
    rw [← hih]
    rcases step_service hstep with ⟨hnot, hsame⟩ | ⟨env, msg, queue, rfl, hqueue, hservice⟩
    · rw [hsame]
      exact (and_iff_left fun env _ _ _ ha => absurd ha (hnot env)).symm
    · obtain ⟨ds, hds⟩ := run_service hs₀
      rw [Service.step_linesFit_iff hds hservice]
      refine and_congr_right fun _ => ⟨?_, fun hall => hall env s₀ msg queue rfl hs₀ hqueue⟩
      intro hshallow _ s₁ msg₁ queue₁ _ hs₁ hqueue₁
      obtain rfl := Option.some.inj (hs₀.symm.trans hs₁)
      obtain ⟨rfl, rfl⟩ := List.cons.inj (hqueue.symm.trans hqueue₁)
      exact hshallow

/-- Where no call reports there is nothing to be deep. -/
theorem handlesShallow_of_silent
    (hops : ∀ a ∈ actions, ∀ op, a.op = some op → op.isReport = false) :
    HandlesShallow actions := by
  intro pre a post hsplit env s msg queue _ hs hqueue
  obtain ⟨a', ha', op, pID, hop, hmade⟩ := run_queue hs msg (by simp [hqueue])
  have hsilent : op.isReport = false := hops a' (by simp [hsplit, ha']) op hop
  unfold PerfMessage.Shallow
  rw [hmade.type, MessageType.ofCode_code]
  cases op with
  | reportProcess _ _ _ | reportThread _ _ => exact absurd hsilent (by simp [Op.isReport])
  | start _ _ _ _ | stop _ _ _ | setThreshold _ _ _ | closeThread _ _ | closeProcess _ _ => trivial

theorem callsOf_drain (pID : pid_t) (actions : List Action) (envs : List Env) :
    callsOf pID (actions ++ envs.map .handle) = callsOf pID actions := by
  induction envs generalizing actions with
  | nil => simp
  | cons env envs ih =>
    rw [List.map_cons, List.append_cons, ih, callsOf_concat,
      show callsOf pID [.handle env] = [] from rfl, List.append_nil]

theorem pidsOnce_drain {envs : List Env} (h : PidsOnce actions) :
    PidsOnce (actions ++ envs.map .handle) := by
  intro pre pID post hsplit
  rcases List.append_eq_append_iff.mp hsplit with ⟨rest, hpre, hrest⟩ | ⟨rest, hactions, hpost⟩
  · have hmem : Action.init pID ∈ envs.map .handle := by rw [hrest]; simp
    simp at hmem
  · cases rest with
    | nil =>
      have hmem : Action.init pID ∈ [] ++ envs.map .handle := hpost ▸ List.mem_cons_self
      simp at hmem
    | cons a rest =>
      obtain ⟨rfl, -⟩ := List.cons.inj hpost
      exact h pre pID rest hactions

/-- **Whatever the processes did under names, the service can handle all of what they sent**,
    whatever its clocks show, and inside its line buffers where what it handles is shallow. If what
    they did were calls of their own, it then has the trees of the in-process build. -/
theorem settles {actions : List Action} {s : State} (h : run actions = some s)
    (hnames : ∀ a ∈ actions, ∀ op, a.op = some op → op.named) (envs : List Env)
    (hlen : envs.length = s.queue.length) :
    ∃ s', run (actions ++ envs.map .handle) = some s' ∧ s'.queue = [] ∧
      (s'.service.mem.LinesFit ↔ HandlesShallow (actions ++ envs.map .handle)) ∧
      (PidsOnce actions → ∀ pID inProc, OwnCalls pID (callsOf pID actions) →
        InProc.run pID ((callsOf pID actions).map Op.cut) = .ok inProc →
          ∀ tID, (s'.service.mem.view pID tID).map CallTree.measured =
            (inProc.mem.view pID tID).map CallTree.measured) := by
  obtain ⟨s', hs', hnil⟩ := run_drain h (run_queue_named h hnames) hlen
  refine ⟨s', hs', hnil, run_linesFit_iff hs', fun hpids pID inProc hops hinProc tID => ?_⟩
  obtain ⟨ds, hds, hacc⟩ := run_accounts hs' (pidsOnce_drain hpids)
  obtain ⟨c, hc, -, hsent⟩ := hacc pID
  rw [callsOf_drain] at hc
  rw [hnil, List.append_nil, List.filter_map] at hsent
  obtain ⟨n, hn⟩ := hops.1
  obtain ⟨-, c₁, w, hc₁, -, hw, hhandled⟩ := run_own hops hn hinProc
  obtain rfl := Except.ok.inj (hc.symm.trans hc₁)
  rw [hsent] at hhandled
  obtain ⟨service, hservice, -, hview⟩ := hw.service hinProc hhandled
  rw [← hview, Service.view_of_sender hds hservice]

theorem twoProcesses_settles : ∃ s s' inProc, run twoProcesses = some s ∧
    run (twoProcesses ++ [({} : Env), {}].map .handle) = some s' ∧ s'.queue = [] ∧
      (s'.service.mem.LinesFit ↔ HandlesShallow (twoProcesses ++ [({} : Env), {}].map .handle)) ∧
      InProc.run 42 ((callsOf 42 twoProcesses).map Op.cut) = .ok inProc ∧
      ∀ tID, (s'.service.mem.view 42 tID).map CallTree.measured =
        (inProc.mem.view 42 tID).map CallTree.measured := by
  obtain ⟨s, hs, hqueue⟩ := Option.map_eq_some_iff.mp
    (show (run twoProcesses).map (·.queue.length) = some 2 by decide)
  have hnames : ∀ a ∈ twoProcesses, ∀ op, a.op = some op → op.named := by
    simp [twoProcesses, Action.op, Op.named, nameF, nameG]
  obtain ⟨s', hs', hnil, hfit, hagree⟩ := settles hs hnames [{}, {}] hqueue.symm
  obtain ⟨hown, inProc, hinProc⟩ := twoProcesses_own 42
  exact ⟨s, s', inProc, hs, hs', hnil, hfit, hinProc, hagree twoProcesses_once 42 inProc hown hinProc⟩

end Clients
end RdkPerf

import RdkPerf.Model.Deployment
import RdkPerf.Proof.ManyClients
import RdkPerf.Proof.RunLoop

/-!
# Who serves

`main` of the service looks for the queue before it makes one, and that keeps a second service away
as long as no two of them start at the same time (`one_serves_iff`). `Happens` says once what each step
of the system can do; the invariants here and in the modules after this one are read off it.
-/

namespace RdkPerf

open Lib

namespace Deployment

variable {s s' : State} {a : Action} {actions : List Action} {pID : pid_t} {q : Nat}

/-! ## What a step can do -/

/-- What a process is connected to after a call that makes its client `client`. -/
def Process.connected (process : Process) (kernel : Kernel) (client : Client) : Option Nat :=
  if process.client.queue then process.m_queue else if client.queue then kernel.named else none

/-- **The steps**, with what is known of each. -/
inductive Happens (s : State) : Action → State → Prop
  | spawned (pID : pid_t) (hnew : s.services pID = none) :
      Happens s (.spawn pID) (s.setService pID s.kernel .checking)
  | duplicate (pID : pid_t) (errno : Int32) (hmain : s.services pID = some .checking)
      (hnamed : s.kernel.named ≠ none) :
      Happens s (.advance pID errno) (s.setService pID s.kernel .exited)
  | alone (pID : pid_t) (errno : Int32) (hmain : s.services pID = some .checking)
      (hnamed : s.kernel.named = none) :
      Happens s (.advance pID errno) (s.setService pID s.kernel .unlinking)
  | unlinked (pID : pid_t) (errno : Int32) (hmain : s.services pID = some .unlinking) :
      Happens s (.advance pID errno) (s.setService pID s.kernel.unlink .opening)
  | opened (pID : pid_t) (errno : Int32) (hmain : s.services pID = some .opening) :
      Happens s (.advance pID errno) (s.setService pID (s.kernel.create mq_maxmsg).1
        (.serving (s.kernel.create mq_maxmsg).2 (RunLoop.init errno) .init))
  | released (pID : pid_t) (errno : Int32) (q : Nat) (loop : RunLoop.State)
      (service : Service.State) (hmain : s.services pID = some (.serving q loop service))
      (hleft : loop.bContinue = false) :
      Happens s (.advance pID errno) (s.setService pID s.kernel.unlink .exited)
  | received (pID : pid_t) (env : Env) (q : Nat) (loop loop' : RunLoop.State)
      (service service' : Service.State) (msg : PerfMessage) (kernel : Kernel)
      (hmain : s.services pID = some (.serving q loop service)) (hrun : loop.bContinue = true)
      (hmsg : s.kernel.receive q = some (msg, kernel))
      (hturn : Main.turn loop service (.message msg) env = .ok (loop', service')) :
      Happens s (.receive pID (.message env))
        (s.setService pID kernel (.serving q loop' service'))
  | waited (pID : pid_t) (arrival : Arrival) (q : Nat) (loop loop' : RunLoop.State)
      (service service' : Service.State) (outcome : Outcome)
      (hmain : s.services pID = some (.serving q loop service)) (hrun : loop.bContinue = true)
      (hempty : s.kernel.messages q = []) (hnone : ∀ msg, outcome ≠ .message msg)
      (hturn : Main.turn loop service outcome {} = .ok (loop', service'))
      (harrival : ∀ env, arrival ≠ .message env) :
      Happens s (.receive pID arrival) (s.setService pID s.kernel (.serving q loop' service'))
  | killed (pID : pid_t) (main : Main) (hmain : s.services pID = some main) :
      Happens s (.kill pID) (s.setService pID s.kernel .exited)
  | started (pID : pid_t) (hnew : s.live pID = none) :
      Happens s (.init pID) (s.setLive pID (some ⟨.init pID, none⟩))
  | called (pID : pid_t) (op : Op) (process : Process) (client : Client)
      (msg : Option PerfMessage) (kernel : Kernel) (hlive : s.live pID = some process)
      (hstep : process.client.step op = .ok client)
      (hsent : client.sent = process.client.sent ++ msg.toList)
      (hsilent : msg = none → kernel = s.kernel)
      (hsend : ∀ m, msg = some m →
        mq_send s.kernel (process.connected s.kernel client) m = some kernel) :
      Happens s (.call pID op) ({ s with kernel := kernel }.setLive pID
        (some ⟨client, process.connected s.kernel client⟩))
  | terminated (pID : pid_t) (process : Process) (hlive : s.live pID = some process) :
      Happens s (.terminate pID) (s.setLive pID none)

theorem advance_happens {errno : Int32} (h : step s (.advance pID errno) = some s') :
    Happens s (.advance pID errno) s' := by
  obtain ⟨main, hmain, h⟩ := Option.bind_eq_some_iff.mp h
  obtain ⟨⟨kernel, main'⟩, hadvance, h⟩ := Option.bind_eq_some_iff.mp h
  obtain rfl := Option.some.inj h
  cases main with
  | checking =>
    simp only [Main.advance] at hadvance
    split at hadvance
    · next hnamed =>
      obtain ⟨rfl, rfl⟩ := Prod.mk.inj (Option.some.inj hadvance)
      exact .duplicate pID errno hmain (Option.isSome_iff_ne_none.mp hnamed)
    · next hnamed =>
      obtain ⟨rfl, rfl⟩ := Prod.mk.inj (Option.some.inj hadvance)
      exact .alone pID errno hmain (by simpa using hnamed)
  | unlinking =>
    obtain ⟨rfl, rfl⟩ := Prod.mk.inj (Option.some.inj hadvance)
    exact .unlinked pID errno hmain
  | opening =>
    obtain ⟨rfl, rfl⟩ := Prod.mk.inj (Option.some.inj hadvance)
    exact .opened pID errno hmain
  | serving q loop service =>
    simp only [Main.advance] at hadvance
    split at hadvance
    · exact absurd hadvance (by simp)
    · next hleft =>
      obtain ⟨rfl, rfl⟩ := Prod.mk.inj (Option.some.inj hadvance)
      exact .released pID errno q loop service hmain (by simpa using hleft)
  | exited => exact absurd hadvance (by simp [Main.advance])

theorem receive_happens {arrival : Arrival} (h : step s (.receive pID arrival) = some s') :
    Happens s (.receive pID arrival) s' := by
  obtain ⟨main, hmain, h⟩ := Option.bind_eq_some_iff.mp h
  obtain ⟨⟨kernel, main'⟩, hreceive, h⟩ := Option.bind_eq_some_iff.mp h
  obtain rfl := Option.some.inj h
  cases main with
  | serving q loop service =>
    simp only [Main.receive] at hreceive
    split at hreceive
    · next hrun =>
      cases arrival with
      | message env =>
        obtain ⟨⟨msg, kernel'⟩, hmsg, hreceive⟩ := Option.bind_eq_some_iff.mp hreceive
        obtain ⟨⟨loop', service'⟩, hturn, hreceive⟩ := Option.bind_eq_some_iff.mp hreceive
        obtain ⟨rfl, rfl⟩ := Prod.mk.inj (Option.some.inj hreceive)
        exact .received pID env q loop loop' service service' msg kernel' hmain hrun hmsg
          (toOption_eq_some.mp hturn)
      | timedOut =>
        obtain ⟨_, hempty, hreceive⟩ := Option.bind_eq_some_iff.mp hreceive
        obtain ⟨⟨loop', service'⟩, hturn, hreceive⟩ := Option.bind_eq_some_iff.mp hreceive
        obtain ⟨rfl, rfl⟩ := Prod.mk.inj (Option.some.inj hreceive)
        exact .waited pID .timedOut q loop loop' service service' .timedOut hmain hrun
          (by simpa using hempty) (by simp) (toOption_eq_some.mp hturn) (by simp)
      | failed errnum hne =>
        obtain ⟨_, hempty, hreceive⟩ := Option.bind_eq_some_iff.mp hreceive
        obtain ⟨⟨loop', service'⟩, hturn, hreceive⟩ := Option.bind_eq_some_iff.mp hreceive
        obtain ⟨rfl, rfl⟩ := Prod.mk.inj (Option.some.inj hreceive)
        exact .waited pID (.failed errnum hne) q loop loop' service service' (.failed errnum hne)
          hmain hrun (by simpa using hempty) (by simp) (toOption_eq_some.mp hturn) (by simp)
    · exact absurd hreceive (by simp)
  | checking | unlinking | opening | exited => exact absurd hreceive (by simp [Main.receive])

theorem call_happens {op : Op} (h : step s (.call pID op) = some s') :
    Happens s (.call pID op) s' := by
  obtain ⟨process, hlive, h⟩ := Option.bind_eq_some_iff.mp h
  obtain ⟨⟨kernel, process'⟩, hcall, h⟩ := Option.bind_eq_some_iff.mp h
  obtain rfl := Option.some.inj h
  obtain ⟨client, hclient, hcall⟩ := Option.bind_eq_some_iff.mp hcall
  obtain ⟨kernel', hsend, hcall⟩ := Option.bind_eq_some_iff.mp hcall
  obtain ⟨rfl, rfl⟩ := Prod.mk.inj (Option.some.inj hcall)
  have hstep := toOption_eq_some.mp hclient
  obtain ⟨msg, hsent, -⟩ := Client.step_made hstep
  rw [hsent, List.drop_left] at hsend
  refine .called pID op process client msg kernel' hlive hstep hsent ?_ ?_
  · rintro rfl
    exact (Option.some.inj hsend).symm
  · rintro m rfl
    simpa [Process.connected] using hsend

theorem step_happens (h : step s a = some s') : Happens s a s' := by
  cases a with
  | spawn pID =>
    simp only [step] at h
    split at h
    · exact absurd h (by simp)
    · next hnew =>
      obtain rfl := Option.some.inj h
      exact .spawned pID hnew
  | advance pID errno => exact advance_happens h
  | receive pID arrival => exact receive_happens h
  | kill pID =>
    obtain ⟨main, hmain, h⟩ := Option.bind_eq_some_iff.mp h
    obtain rfl := Option.some.inj h
    exact .killed pID main hmain
  | init pID =>
    simp only [step] at h
    split at h
    · exact absurd h (by simp)
    · next hnew =>
      obtain rfl := Option.some.inj h
      exact .started pID hnew
  | call pID op => exact call_happens h
  | terminate pID =>
    obtain ⟨process, hlive, h⟩ := Option.bind_eq_some_iff.mp h
    obtain rfl := Option.some.inj h
    exact .terminated pID process hlive

theorem run_concat :
    run (actions ++ [a]) = some s' ↔ ∃ s, run actions = some s ∧ step s a = some s' := by
  unfold run
  rw [List.foldlM_append]
  simp [Option.bind_eq_some_iff]

/-- What every step keeps holds after a run. -/
theorem foldlM_keeps {I : State → Prop} (h₀ : I s)
    (hstep : ∀ {s a s'}, a ∈ actions → I s → Happens s a s' → I s')
    (h : actions.foldlM step s = some s') : I s' := by
  induction actions generalizing s with
  | nil =>
    obtain rfl := Option.some.inj h
    exact h₀
  | cons a actions ih =>
    rw [List.foldlM_cons] at h
    obtain ⟨s₁, hs₁, h⟩ := Option.bind_eq_some_iff.mp h
    refine ih (hstep List.mem_cons_self h₀ (step_happens hs₁)) ?_ h
    intro s a s' ha
    exact hstep (List.mem_cons_of_mem _ ha)

@[simp] theorem State.setService_services (s : State) (pID p : pid_t) (kernel : Kernel)
    (main : Main) : (s.setService pID kernel main).services p =
      if p = pID then some main else s.services p := rfl
@[simp] theorem State.setService_kernel (s : State) (pID : pid_t) (kernel : Kernel) (main : Main) :
    (s.setService pID kernel main).kernel = kernel := rfl
@[simp] theorem State.setService_live (s : State) (pID : pid_t) (kernel : Kernel) (main : Main) :
    (s.setService pID kernel main).live = s.live := rfl
@[simp] theorem State.setLive_services (s : State) (pID : pid_t) (process : Option Process) :
    (s.setLive pID process).services = s.services := rfl
@[simp] theorem State.setLive_kernel (s : State) (pID : pid_t) (process : Option Process) :
    (s.setLive pID process).kernel = s.kernel := rfl
@[simp] theorem State.setLive_live (s : State) (pID p : pid_t) (process : Option Process) :
    (s.setLive pID process).live p = if p = pID then process else s.live p := rfl

/-- Sending takes no name away and gives none. -/
theorem mq_send_named {kernel kernel' : Kernel} {m_queue : Option Nat} {msg : PerfMessage}
    (h : mq_send kernel m_queue msg = some kernel') : kernel'.named = kernel.named := by
  cases m_queue with
  | none =>
    obtain rfl := Option.some.inj h
    rfl
  | some q => exact (Channels.send_eq_some h).1

/-! ## One service at a time -/

def Main.isStarting : Main → Bool
  | .unlinking => true
  | .opening => true
  | .checking => false
  | .serving _ _ _ => false
  | .exited => false

/-- Past the check, and not exited. -/
def Main.isActive : Main → Bool
  | .unlinking => true
  | .opening => true
  | .checking => false
  | .serving _ _ _ => true
  | .exited => false

/-- No service passes its check while another is between its check and its queue. -/
def Raceless (actions : List Action) : Prop :=
  ∀ pre pID errno post s, actions = pre ++ .advance pID errno :: post → run pre = some s →
    s.services pID = some .checking → s.kernel.named = none →
      ∀ p main, s.services p = some main → main.isStarting = false

structure Alone (s : State) : Prop where
  one : ∀ {p p' main main'}, s.services p = some main → s.services p' = some main' →
    main.isActive = true → main'.isActive = true → p = p'
  named : ∀ {p q loop service}, s.services p = some (.serving q loop service) →
    s.kernel.named = some q

namespace Alone

theorem init : Alone .init where
  one h := absurd h (by simp [State.init])
  named h := absurd h (by simp [State.init])

variable {main₀ main : Main} {kernel : Kernel}

/-- Where one service is active the others are not. -/
theorem others (hA : Alone s) (hmain : s.services pID = some main₀) (hactive : main₀.isActive = true)
    {p : pid_t} (hne : p ≠ pID) (hp : s.services p = some main) : main.isActive = false := by
  rw [Bool.eq_false_iff]
  intro hact
  exact hne (hA.one hp hmain hact hactive)

/-- A service that is active after its step needs the others to be not. -/
theorem moved (hA : Alone s)
    (hothers : main.isActive = true → ∀ p main₁, p ≠ pID → s.services p = some main₁ →
      main₁.isActive = false)
    (hthis : ∀ q loop service, main = .serving q loop service → kernel.named = some q)
    (hnamed : ∀ p q loop service, p ≠ pID → s.services p = some (.serving q loop service) →
      kernel.named = some q) : Alone (s.setService pID kernel main) := by
  constructor
  · intro p p' main₁ main₁' hp hp' hact hact'
    rw [State.setService_services] at hp hp'
    split at hp
    · next hpID =>
      obtain rfl := Option.some.inj hp
      split at hp'
      · next hpID' => rw [hpID, hpID']
      · next hne => exact absurd hact' (by simp [hothers hact p' main₁' hne hp'])
    · next hne =>
      split at hp'
      · obtain rfl := Option.some.inj hp'
        exact absurd hact (by simp [hothers hact' p main₁ hne hp])
      · exact hA.one hp hp' hact hact'
  · intro p q loop service hp
    rw [State.setService_services] at hp
    split at hp
    · exact hthis q loop service (Option.some.inj hp)
    · next hne => exact hnamed p q loop service hne hp

/-- The name is another's business only if another serves. -/
theorem named_of_none (hA : Alone s) (hmain : s.services pID = some main₀)
    (hactive : main₀.isActive = true) (p : pid_t) (q : Nat) (loop : RunLoop.State)
    (service : Service.State) (hne : p ≠ pID)
    (hp : s.services p = some (.serving q loop service)) : kernel.named = some q :=
  absurd (hA.others hmain hactive hne hp) (by simp [Main.isActive])

theorem step (hA : Alone s) (h : Happens s a s')
    (hrace : ∀ pID errno, a = .advance pID errno → s.services pID = some .checking →
      s.kernel.named = none → ∀ p main, s.services p = some main → main.isStarting = false) : Alone s' := by
  cases h with
  | spawned pID hnew =>
    exact hA.moved (by simp [Main.isActive]) (by simp) fun _ _ _ _ _ hp => hA.named hp
  | duplicate pID errno hmain hnamed =>
    exact hA.moved (by simp [Main.isActive]) (by simp) fun _ _ _ _ _ hp => hA.named hp
  | alone pID errno hmain hnamed =>
    -- whoever serves has the name, and nobody else is starting
    have hidle : ∀ p main₁, s.services p = some main₁ → main₁.isActive = false := by
      intro p main₁ hp
      have hstarting := hrace pID errno rfl hmain hnamed p main₁ hp
      cases main₁ with
      | serving q loop service => exact absurd (hnamed.symm.trans (hA.named hp)) (by simp)
      | checking => rfl
      | exited => rfl
      | unlinking => exact absurd hstarting (by simp [Main.isStarting])
      | opening => exact absurd hstarting (by simp [Main.isStarting])
    exact hA.moved (fun _ p main₁ _ hp => hidle p main₁ hp) (by simp) fun _ _ _ _ _ hp => hA.named hp
  | unlinked pID errno hmain =>
    exact hA.moved (fun _ _ _ hne hp => hA.others hmain rfl hne hp) (by simp)
      (hA.named_of_none hmain rfl)
  | opened pID errno hmain =>
    refine hA.moved (fun _ _ _ hne hp => hA.others hmain rfl hne hp) ?_ (hA.named_of_none hmain rfl)
    intro q loop service heq
    rw [← (Main.serving.inj heq).1]
    exact Channels.create_named s.kernel mq_maxmsg
  | released pID errno q loop service hmain hleft =>
    exact hA.moved (by simp [Main.isActive]) (by simp) (hA.named_of_none hmain rfl)
  | received pID env q loop loop' service service' msg kernel hmain hrun hmsg hturn =>
    refine hA.moved (fun _ _ _ hne hp => hA.others hmain rfl hne hp) ?_ (hA.named_of_none hmain rfl)
    intro q' loop₁ service₁ heq
    rw [← (Main.serving.inj heq).1, (Channels.receive_eq_some hmsg).1]
    exact hA.named hmain
  | waited pID arrival q loop loop' service service' outcome hmain hrun hempty hnone hturn =>
    refine hA.moved (fun _ _ _ hne hp => hA.others hmain rfl hne hp) ?_ (hA.named_of_none hmain rfl)
    intro q' loop₁ service₁ heq
    rw [← (Main.serving.inj heq).1]
    exact hA.named hmain
  | killed pID main hmain =>
    exact hA.moved (by simp [Main.isActive]) (by simp) fun _ _ _ _ _ hp => hA.named hp
  | started pID hnew => exact ⟨hA.one, hA.named⟩
  | called pID op process client msg kernel hlive hstep hsent hsilent hsend =>
    refine ⟨hA.one, fun {p q loop service} hp => ?_⟩
    show kernel.named = some q
    cases msg with
    | none => rw [hsilent rfl, hA.named hp]
    | some m => rw [mq_send_named (hsend m rfl), hA.named hp]
  | terminated pID process hlive => exact ⟨hA.one, hA.named⟩

end Alone

theorem Raceless.left {actions' : List Action} (h : Raceless (actions ++ actions')) :
    Raceless actions := by
  intro pre pID errno post s hsplit
  exact h pre pID errno (post ++ actions') s (by rw [hsplit]; simp)

theorem run_alone (h : run actions = some s) (hrace : Raceless actions) : Alone s := by
  induction actions using List.reverseRecOn generalizing s with
  | nil =>
    obtain rfl := Option.some.inj h
    exact .init
  | append_singleton actions a ih =>
    obtain ⟨s₀, hs₀, hstep⟩ := run_concat.mp h
    refine (ih hs₀ hrace.left).step (step_happens hstep) ?_
    rintro pID errno rfl hmain hnamed
    exact hrace actions pID errno [] s₀ rfl hs₀ hmain hnamed

/-- With one service there is nobody to race with. -/
theorem services_of_single (hone : ∀ p, .spawn p ∈ actions → p = pID) (h : run actions = some s) :
    ∀ p main, s.services p = some main → p = pID := by
  refine foldlM_keeps (I := fun s => ∀ p main, s.services p = some main → p = pID) ?_ ?_ h
  · intro p main hp
    exact absurd hp (by simp [State.init])
  · intro s a s' ha hI hs
    have hmoved : ∀ {pID' kernel main}, pID' = pID → ∀ p main₁,
        (s.setService pID' kernel main).services p = some main₁ → p = pID := by
      intro pID' kernel main hpID' p main₁ hp
      rw [State.setService_services] at hp
      split at hp
      · next hp' => rw [hp', hpID']
      · exact hI p main₁ hp
    cases hs with
    | spawned pID' hnew => exact hmoved (hone pID' ha)
    | duplicate pID' errno hmain | alone pID' errno hmain | unlinked pID' errno hmain
    | opened pID' errno hmain => exact hmoved (hI pID' _ hmain)
    | released pID' errno q loop service hmain => exact hmoved (hI pID' _ hmain)
    | received pID' env q loop loop' service service' msg kernel hmain => exact hmoved (hI pID' _ hmain)
    | waited pID' arrival q loop loop' service service' outcome hmain => exact hmoved (hI pID' _ hmain)
    | killed pID' main hmain => exact hmoved (hI pID' _ hmain)
    | started pID' hnew => exact hI
    | called => exact hI
    | terminated => exact hI

/-- Where a service receives from. -/
def Main.m_queue : Main → Option Nat
  | .serving m_queue _ _ => some m_queue
  | _ => none

theorem Main.serving_of_m_queue {main : Main} (h : main.m_queue = some q) :
    ∃ loop service, main = .serving q loop service := by
  cases main with
  | serving q' loop service =>
    obtain rfl := Option.some.inj h
    exact ⟨loop, service, rfl⟩
  | checking | unlinking | opening | exited => exact absurd h (by simp [Main.m_queue])

/-- The process sends to the queue `q`. -/
def Connected (s : State) (q : Nat) (pID : pid_t) : Prop :=
  ∃ process, s.live pID = some process ∧ process.client.queue = true ∧ process.m_queue = some q

/-- A service starts, and a process makes a call. -/
def connectedOnce : List Action :=
  [.spawn 1, .advance 1 0, .advance 1 0, .advance 1 0, .init 42,
    .call 42 (.start threadA nameF none {})]

end Deployment
end RdkPerf

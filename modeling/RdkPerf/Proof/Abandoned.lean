import RdkPerf.Proof.Deployment

/-!
# What becomes of a queue that nobody serves

A service that goes leaves its queue behind. If it was killed the name stays, and no service ever
gets past its check again (`killed_for_good`). If it left its loop the name is gone, and the next
service makes another queue, which the processes that are connected never look for. Either way
nobody will receive from the old queue (`Abandoned`), and so the processes connected to it come to a
halt: all together they can make as many calls as there is room left, which is ten at most
(`connected_stall`).
-/

namespace RdkPerf

open Lib

namespace Deployment

variable {s s' : State} {a : Action} {actions : List Action} {pID : pid_t} {q : Nat}

/-! ## A queue that nobody serves -/

/-- Nobody receives from the queue, and nobody is about to. -/
structure Abandoned (s : State) (q : Nat) : Prop where
  made : s.kernel.objects.get q ≠ none
  unserved : ∀ {p loop service}, s.services p ≠ some (.serving q loop service)
  /-- Whoever is past its check will not find the queue under the name. -/
  unnamed : ∀ {p}, s.services p = some .opening → s.kernel.named ≠ some q

theorem mq_send_made {kernel kernel' : Kernel} {m_queue : Option Nat} {msg : PerfMessage}
    (h : mq_send kernel m_queue msg = some kernel') (hq : kernel.objects.get q ≠ none) :
    kernel'.objects.get q ≠ none := by
  cases m_queue with
  | none =>
    obtain rfl := Option.some.inj h
    exact hq
  | some q' => exact Channels.send_made h hq

/-- What a call does to the kernel. -/
theorem called_kernel {process : Process} {client : Client} {msg : Option PerfMessage}
    {kernel : Kernel} {P : Kernel → Prop} (hP : P s.kernel) (hsilent : msg = none → kernel = s.kernel)
    (hsend : ∀ m, msg = some m →
      mq_send s.kernel (process.connected s.kernel client) m = some kernel)
    (hkeep : ∀ {m k}, mq_send s.kernel (process.connected s.kernel client) m = some k → P k) :
    P kernel := by
  cases msg with
  | none =>
    rw [hsilent rfl]
    exact hP
  | some m => exact hkeep (hsend m rfl)

namespace Abandoned

variable {main : Main} {kernel : Kernel}

theorem moved (h : Abandoned s q) (hmade : kernel.objects.get q ≠ none)
    (hserving : ∀ loop service, main ≠ .serving q loop service)
    (hopening : main = .opening → kernel.named ≠ some q)
    (hnamed : kernel.named = some q → s.kernel.named = some q) :
    Abandoned (s.setService pID kernel main) q := by
  refine ⟨hmade, ?_, ?_⟩
  · intro p loop service hp
    rw [State.setService_services] at hp
    split at hp
    · exact hserving loop service (Option.some.inj hp)
    · exact h.unserved hp
  · intro p hp
    rw [State.setService_services] at hp
    split at hp
    · exact hopening (Option.some.inj hp)
    · exact fun hq => h.unnamed hp (hnamed hq)

/-- **A queue that is abandoned stays so.** -/
theorem step (h : Abandoned s q) (hs : Happens s a s') : Abandoned s' q := by
  cases hs with
  | spawned pID hnew => exact h.moved h.made (by simp) (by simp) id
  | duplicate pID errno hmain hnamed => exact h.moved h.made (by simp) (by simp) id
  | alone pID errno hmain hnamed => exact h.moved h.made (by simp) (by simp) id
  | unlinked pID errno hmain => exact h.moved h.made (by simp) (by simp) (by simp)
  | opened pID errno hmain =>
    have hne := Channels.create_ne mq_maxmsg h.made (h.unnamed hmain)
    refine h.moved (Channels.create_made _ h.made) ?_ (by simp) ?_
    · intro loop service heq
      exact hne (Main.serving.inj heq).1
    · intro hnamed
      rw [Channels.create_named] at hnamed
      exact absurd (Option.some.inj hnamed) hne
  | released pID errno q' loop service hmain hleft => exact h.moved h.made (by simp) (by simp) (by simp)
  | received pID env q' loop loop' service service' msg kernel hmain hrun hmsg hturn =>
    refine h.moved (Channels.receive_made hmsg h.made) ?_ (by simp) ?_
    · intro loop₁ service₁ heq
      obtain rfl := (Main.serving.inj heq).1
      exact h.unserved hmain
    · rw [(Channels.receive_eq_some hmsg).1]
      exact id
  | waited pID arrival q' loop loop' service service' outcome hmain hrun hempty hnone hturn =>
    refine h.moved h.made ?_ (by simp) id
    intro loop₁ service₁ heq
    obtain rfl := (Main.serving.inj heq).1
    exact h.unserved hmain
  | killed pID main hmain => exact h.moved h.made (by simp) (by simp) id
  | started pID hnew => exact ⟨h.made, h.unserved, h.unnamed⟩
  | called pID op process client msg kernel hlive hstep hsent hsilent hsend =>
    refine ⟨?_, h.unserved, ?_⟩
    · exact called_kernel (P := fun k => k.objects.get q ≠ none) h.made hsilent hsend
        fun hk => mq_send_made hk h.made
    · have hnamed : kernel.named = s.kernel.named :=
        called_kernel (P := fun k => k.named = s.kernel.named) rfl hsilent hsend mq_send_named
      show ∀ {p}, s.services p = some .opening → kernel.named ≠ some q
      rw [hnamed]
      exact h.unnamed
  | terminated pID process hlive => exact ⟨h.made, h.unserved, h.unnamed⟩

end Abandoned

/-! ## Room -/

/-- A message that is sent is at the end of the one queue it is sent to. -/
theorem mq_send_messages {kernel kernel' : Kernel} {m_queue : Option Nat} {msg : PerfMessage}
    (h : mq_send kernel m_queue msg = some kernel') : kernel'.messages q =
      kernel.messages q ++ if m_queue = some q then [msg] else [] := by
  cases m_queue with
  | none =>
    obtain rfl := Option.some.inj h
    simp
  | some q' =>
    obtain ⟨-, hq, hother⟩ := Channels.send_eq_some h
    by_cases hq' : q = q'
    · subst hq'
      rw [hq, if_pos rfl]
    · rw [hother q hq', if_neg (by simpa using Ne.symm hq'), List.append_nil]

theorem mq_send_capacity {kernel kernel' : Kernel} {m_queue : Option Nat} {msg : PerfMessage}
    (h : mq_send kernel m_queue msg = some kernel') (hk : kernel.Capacity mq_maxmsg) :
    kernel'.Capacity mq_maxmsg := by
  cases m_queue with
  | none =>
    obtain rfl := Option.some.inj h
    exact hk
  | some q => exact hk.send h

theorem capacity_step (hk : s.kernel.Capacity mq_maxmsg) (h : Happens s a s') :
    s'.kernel.Capacity mq_maxmsg := by
  cases h with
  | opened pID errno hmain => exact hk.create
  | received pID env q loop loop' service service' msg kernel hmain hrun hmsg hturn =>
    exact hk.receive hmsg
  | called pID op process client msg kernel hlive hstep hsent hsilent hsend =>
    exact called_kernel (P := fun k => k.Capacity mq_maxmsg) hk hsilent hsend
      fun hm => mq_send_capacity hm hk
  | spawned pID hnew | duplicate pID errno hmain hnamed | alone pID errno hmain hnamed
  | unlinked pID errno hmain | released pID errno q loop service hmain hleft
  | waited pID arrival q loop loop' service service' outcome hmain hrun hempty hnone hturn
  | killed pID main hmain | started pID hnew | terminated pID process hlive => exact hk

/-- No queue ever holds more than `mq_maxmsg` messages. -/
theorem run_capacity (h : run actions = some s) : s.kernel.Capacity mq_maxmsg := by
  refine foldlM_keeps (I := fun s => s.kernel.Capacity mq_maxmsg) (.init mq_maxmsg) ?_ h
  intro s a s' _ hk hs
  exact capacity_step hk hs

/-! ## Who is connected -/

def Action.isCallOf (pIDs : List pid_t) : Action → Bool
  | .call pID _ => pID ∈ pIDs
  | _ => false

/-- A client with a queue sends a message at each call. -/
theorem client_step_one {c c' : Client} {op : Op} (hqueue : c.queue = true)
    (h : c.step op = .ok c') : c'.queue = true ∧ ∃ msg, c'.sent = c.sent ++ [msg] := by
  obtain ⟨-, hopen, hsent⟩ := Client.step_spec h
  rw [hqueue, Bool.or_true] at hopen
  rcases hsent with ⟨hno, -⟩ | ⟨-, msg, -, hsent⟩
  · exact absurd hopen (by simp [hno])
  · exact ⟨hopen, msg, hsent⟩

/-- A process stays connected until it terminates. -/
theorem Connected.step (h : Connected s q pID) (hs : Happens s a s') (ha : a ≠ .terminate pID) :
    Connected s' q pID := by
  obtain ⟨process, hlive, hqueue, hm⟩ := h
  cases hs with
  | called pID' op process' client msg kernel hlive' hstep hsent hsilent hsend =>
    by_cases hpID : pID = pID'
    · subst hpID
      obtain rfl := Option.some.inj (hlive.symm.trans hlive')
      refine ⟨⟨client, process.connected s.kernel client⟩, ?_, (client_step_one hqueue hstep).1, ?_⟩
      · rw [State.setLive_live, if_pos rfl]
      · show Process.connected process s.kernel client = some q
        rw [Process.connected, if_pos hqueue, hm]
    · refine ⟨process, ?_, hqueue, hm⟩
      rw [State.setLive_live, if_neg hpID]
      exact hlive
  | started pID' hnew =>
    refine ⟨process, ?_, hqueue, hm⟩
    rw [State.setLive_live, if_neg, hlive]
    rintro rfl
    exact absurd (hlive.symm.trans hnew) (by simp)
  | terminated pID' process' hlive' =>
    refine ⟨process, ?_, hqueue, hm⟩
    rw [State.setLive_live, if_neg, hlive]
    rintro rfl
    exact ha rfl
  | spawned | duplicate | alone | unlinked | opened | released | received | waited | killed =>
    exact ⟨process, hlive, hqueue, hm⟩

/-- Each call of a connected process takes some of the room, and nothing gives any back. -/
theorem Abandoned.room {pIDs : List pid_t} (h : Abandoned s q)
    (hpIDs : ∀ p ∈ pIDs, Connected s q p) (hs : Happens s a s') :
    (s.kernel.messages q).length + (if a.isCallOf pIDs then 1 else 0) ≤
      (s'.kernel.messages q).length := by
  cases hs with
  | called pID op process client msg kernel hlive hstep hsent hsilent hsend =>
    show _ ≤ (kernel.messages q).length
    have hgrow : (s.kernel.messages q).length ≤ (kernel.messages q).length := by
      apply called_kernel (P := fun k => (s.kernel.messages q).length ≤ (k.messages q).length)
        (Nat.le_refl _) hsilent hsend
      intro m k hk
      rw [mq_send_messages hk, List.length_append]
      exact Nat.le_add_right _ _
    split
    · next hcall =>
      obtain ⟨process', hlive', hqueue, hm⟩ := hpIDs pID (by simpa [Action.isCallOf] using hcall)
      obtain rfl := Option.some.inj (hlive.symm.trans hlive')
      obtain ⟨-, m, hone⟩ := client_step_one hqueue hstep
      have hmsg : msg = some m := by
        rw [hone] at hsent
        have := List.append_cancel_left hsent
        cases msg with
        | none => simp at this
        | some m' => simpa using this.symm
      have hconn : process.connected s.kernel client = some q := by
        rw [Process.connected, if_pos hqueue, hm]
      rw [mq_send_messages (hsend m hmsg), hconn, if_pos rfl, List.length_append]
      exact Nat.le_refl _
    · exact hgrow
  | received pID env q' loop loop' service service' msg kernel hmain hrun hmsg hturn =>
    have hne : q ≠ q' := by
      rintro rfl
      exact h.unserved hmain
    show _ ≤ (kernel.messages q).length
    rw [(Channels.receive_eq_some hmsg).2.2 q hne]
    exact Nat.le_refl _
  | opened pID errno hmain =>
    rw [State.setService_kernel, Channels.create_messages]
    exact Nat.le_refl _
  | spawned | duplicate | alone | unlinked | released | waited | killed | started | terminated =>
    exact Nat.le_refl _

/-- From a queue that is abandoned nothing is received any more, and what is connected to it runs
    out of room. -/
theorem Abandoned.run {pIDs : List pid_t} (h : Abandoned s q) (hpIDs : ∀ p ∈ pIDs, Connected s q p)
    (hstay : ∀ p ∈ pIDs, .terminate p ∉ actions) (hrun : actions.foldlM Deployment.step s = some s') :
    Abandoned s' q ∧ (s.kernel.messages q).length + actions.countP (·.isCallOf pIDs) ≤
      (s'.kernel.messages q).length := by
  induction actions generalizing s with
  | nil =>
    obtain rfl := Option.some.inj hrun
    exact ⟨h, Nat.le_refl _⟩
  | cons a actions ih =>
    rw [List.foldlM_cons] at hrun
    obtain ⟨s₁, hs₁, hrun⟩ := Option.bind_eq_some_iff.mp hrun
    have hs := step_happens hs₁
    have hnot : ∀ p ∈ pIDs, a ≠ .terminate p := by
      intro p hp heq
      exact hstay p hp (by simp [heq])
    obtain ⟨habandoned, hroom⟩ := ih (h.step hs) (fun p hp => (hpIDs p hp).step hs (hnot p hp))
      (fun p hp hmem => hstay p hp (List.mem_cons_of_mem _ hmem)) hrun
    refine ⟨habandoned, ?_⟩
    have hone := h.room hpIDs hs
    rw [List.countP_cons]
    omega

/-! ## When a service goes -/

theorem run_append {actions' : List Action} :
    run (actions ++ actions') = some s' ↔
      ∃ s, run actions = some s ∧ actions'.foldlM step s = some s' := by
  unfold run
  rw [List.foldlM_append]
  exact Option.bind_eq_some_iff

/-- The queue has its name, and nobody is past the check. -/
structure Blocked (s : State) : Prop where
  named : s.kernel.named ≠ none
  idle : ∀ {p main}, s.services p = some main → main.isActive = false

theorem Blocked.step (h : Blocked s) (hs : Happens s a s') : Blocked s' := by
  have hmoved : ∀ {pID main}, main.isActive = false →
      Blocked (s.setService pID s.kernel main) := by
    intro pID main hidle
    refine ⟨h.named, fun {p main₁} hp => ?_⟩
    rw [State.setService_services] at hp
    split at hp
    · obtain rfl := Option.some.inj hp
      exact hidle
    · exact h.idle hp
  cases hs with
  | spawned pID hnew => exact hmoved rfl
  | duplicate pID errno hmain hnamed => exact hmoved rfl
  | killed pID main hmain => exact hmoved rfl
  | alone pID errno hmain hnamed => exact absurd hnamed h.named
  | unlinked pID errno hmain => exact absurd (h.idle hmain) (by simp [Main.isActive])
  | opened pID errno hmain => exact absurd (h.idle hmain) (by simp [Main.isActive])
  | released pID errno q loop service hmain hleft =>
    exact absurd (h.idle hmain) (by simp [Main.isActive])
  | received pID env q loop loop' service service' msg kernel hmain hrun hmsg hturn =>
    exact absurd (h.idle hmain) (by simp [Main.isActive])
  | waited pID arrival q loop loop' service service' outcome hmain hrun hempty hnone hturn =>
    exact absurd (h.idle hmain) (by simp [Main.isActive])
  | started pID hnew => exact ⟨h.named, h.idle⟩
  | terminated pID process hlive => exact ⟨h.named, h.idle⟩
  | called pID op process client msg kernel hlive hstep hsent hsilent hsend =>
    refine ⟨?_, h.idle⟩
    apply called_kernel (P := fun k => k.named ≠ none) h.named hsilent hsend
    intro m k hk
    rw [mq_send_named hk]
    exact h.named

end Deployment
end RdkPerf

import RdkPerf.Proof.WithoutKernel

/-!
# The service is ten messages behind at most

What is shown of the system without the kernel holds of the one with it, and the kernel adds a
bound, the capacity of its queue: the service has the trees of the in-process build, less what ten
messages say (`ten_behind`).
-/

namespace RdkPerf

open Lib

namespace Deployment

/-- **The service is ten messages behind at most, and never wrong.** -/
theorem ten_behind {actions : List Action} {s : State} {service : pid_t} {q : Nat}
    {loop : RunLoop.State} {trees : Service.State} (h : run actions = some s)
    (hone : ∀ p, .spawn p ∈ actions → p = service) (hopens : Opens actions)
    (hserving : s.services service = some (.serving q loop trees))
    (hpids : PidsOnce (actions.flatMap Action.clients))
    (hown : ∀ pID, OwnCalls pID (callsOf pID (actions.flatMap Action.clients)))
    (hinProc : ∀ pID, ∃ inProc,
      InProc.run pID ((callsOf pID (actions.flatMap Action.clients)).map Op.cut) = .ok inProc)
    (pID : pid_t) : ∃ done pending c₀ c inProc,
      callsOf pID (actions.flatMap Action.clients) = done ++ pending ∧
      Client.run pID done = .ok c₀ ∧
      Client.run pID (callsOf pID (actions.flatMap Action.clients)) = .ok c ∧
      c.sent.length ≤ c₀.sent.length + mq_maxmsg ∧
      InProc.run pID (done.map Op.cut) = .ok inProc ∧
      ∀ tID, (trees.mem.view pID tID).map CallTree.measured =
        (inProc.mem.view pID tID).map CallTree.measured := by
  have hF := run_follows h hone hopens
  rw [hserving] at hF
  obtain ⟨t, ht⟩ := hF.reaches
  obtain ⟨done, pending, c₀, c, inProc, hcalls, hc₀, hc, hsent, hinProc, hview⟩ :=
    (Clients.run_accounts ht.run hpids).firstCalls hown hinProc pID
  refine ⟨done, pending, c₀, c, inProc, hcalls, hc₀, hc, ?_, hinProc, ?_⟩
  · have hqueue : t.queue.length ≤ mq_maxmsg := by
      rw [ht.queue]
      exact (run_capacity h).length_le q
    rw [hsent, List.length_append]
    exact Nat.add_le_add_left (Nat.le_trans (List.length_filter_le _ _) hqueue) _
  · rw [← ht.service]
    exact hview

theorem servedOnce_once : PidsOnce (servedOnce.flatMap Action.clients) := by
  have hall : ∀ pre a post, servedOnce.flatMap Action.clients = pre ++ a :: post →
      ∀ pID, a = .init pID → callsOf pID pre = [] := by
    simp only [servedOnce, connectedOnce, List.cons_append, List.nil_append, List.flatMap_cons,
      List.flatMap_nil, Action.clients]
    repeat rw [forall_places_cons]
    refine ⟨?_, ?_, ?_, ?_, forall_places_nil⟩
    all_goals
      intro pID hinit
      cases hinit
    rfl
  exact fun pre pID post hsplit => hall pre _ post hsplit pID rfl

theorem servedOnce_own (pID : pid_t) :
    OwnCalls pID (callsOf pID (servedOnce.flatMap Action.clients)) ∧ ∃ inProc,
      InProc.run pID ((callsOf pID (servedOnce.flatMap Action.clients)).map Op.cut) = .ok inProc := by
  by_cases hpID : pID = 42
  · subst hpID
    exact own_of_measured 42 (by decide) ⟨_, rfl⟩
  · have hnone : callsOf pID (servedOnce.flatMap Action.clients) = [] := by
      simp [callsOf, servedOnce, connectedOnce, Action.clients, Ne.symm hpID]
    rw [hnone]
    exact own_of_measured pID (by simp) ⟨_, rfl⟩

theorem servedOnce_behind : ∃ s loop trees, run servedOnce = some s ∧
    s.services 1 = some (.serving 0 loop trees) ∧ ∃ done pending c₀ c inProc,
      callsOf 42 (servedOnce.flatMap Action.clients) = done ++ pending ∧
      Client.run 42 done = .ok c₀ ∧
      Client.run 42 (callsOf 42 (servedOnce.flatMap Action.clients)) = .ok c ∧
      c.sent.length ≤ c₀.sent.length + mq_maxmsg ∧
      InProc.run 42 (done.map Op.cut) = .ok inProc ∧
      ∀ tID, (trees.mem.view 42 tID).map CallTree.measured =
        (inProc.mem.view 42 tID).map CallTree.measured := by
  obtain ⟨s, loop, trees, hs, hserving⟩ := servedOnce_run
  exact ⟨s, loop, trees, hs, hserving, ten_behind hs servedOnce_single servedOnce_opens hserving
    servedOnce_once (fun pID => (servedOnce_own pID).1) (fun pID => (servedOnce_own pID).2) 42⟩

end Deployment
end RdkPerf

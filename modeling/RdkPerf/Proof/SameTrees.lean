import RdkPerf.Proof.DeepReports

/-!
# The remote build refines the in-process build

What a thread measures is the same in both builds: the messages of its starts and stops make, in the
service, the tree that the same starts and stops make in the process. Two things end a run before it
can be compared. A call without a name has no node in either build, and the in-process build prints
what it finds under a call that takes too long, which may be too deep to be printed
(`service_refines_iff`).
-/

namespace RdkPerf

open Lib

variable {pID : pid_t} {ops : List Op} {n : Nesting}

/-- What a client sends of calls on records is nothing else. -/
theorem Client.run_callMessages {c : Client}
    (hops : ∀ pre op post, ops = pre ++ op :: post → ∀ n, Nesting.run pre = some n → n.Scoped op)
    (hn : Nesting.run ops = some n) (hc : Client.run pID ops = .ok c) :
    ∀ msg ∈ c.sent, CallMessage msg := by
  induction ops using List.reverseRecOn generalizing n c with
  | nil =>
    obtain rfl := Except.ok.inj hc
    exact fun msg hmsg => absurd hmsg List.not_mem_nil
  | append_singleton ops op ih =>
    obtain ⟨n₀, hn₀, -⟩ := Nesting.run_concat.mp hn
    obtain ⟨hops₀, hop⟩ := forall_places_concat.mp hops
    obtain ⟨c₀, hc₀, hstep⟩ := foldlM_concat_ok.mp hc
    obtain ⟨msgs, hsent, hcalls⟩ := RdkPerf.step_sends (hop n₀ hn₀) hstep
    intro msg hmsg
    rw [hsent] at hmsg
    rcases List.mem_append.mp hmsg with hold | hnew
    · exact ih hops₀ hn₀ hc₀ msg hold
    · exact hcalls msg hnew

/-- A service that was sent nothing else has printed nothing. -/
theorem Service.run_linesFit_of_calls {ds : List Delivery} {service : State}
    (hds : ∀ d ∈ ds, CallMessage d.msg) (h : run ds = .ok service) : service.mem.LinesFit := by
  have hlog : service.mem.log = [] := run_callMessages_log hds h
  intro line hline
  rw [hlog] at hline
  exact absurd hline List.not_mem_nil

/-- **The remote build refines the in-process build** exactly when every call has a name and no call
    that takes too long has more nested below it than can be printed: on such a well-nested trace both
    builds have an outcome, and once the service has handled the messages of the one, whatever its
    clocks show, its trees are those of the other. -/
theorem service_refines_iff (pID : pid_t) (ops : List Op) (hops : ∀ op ∈ ops, op.isMeasure)
    (hnest : WellNested ops) :
    (∃ s c, InProc.run pID (ops.map Op.cut) = .ok s ∧ s.mem.LinesFit ∧ Client.run pID ops = .ok c ∧
      ∀ ds : List Service.Delivery, ds.map (·.msg) = c.sent →
        ∃ service, Service.run ds = .ok service ∧ service.mem.LinesFit ∧ ∀ tID,
          (service.mem.view pID tID).map CallTree.measured =
            (s.mem.view pID tID).map CallTree.measured) ↔
      (∀ op ∈ ops, op.named) ∧
        ∀ pre op post, ops.map Op.cut = pre ++ op :: post → op.Shallow pID pre := by
  constructor
  · rintro ⟨s, -, hs, hfit, -⟩
    refine ⟨fun op hmem => ?_, (InProc.run_linesFit_iff hs).mp hfit⟩
    obtain ⟨pre, post, hsplit⟩ := List.append_of_mem (List.mem_map_of_mem (f := Op.cut) hmem)
    exact Op.named_cut.mp (InProc.run_ok_iff.mp ⟨s, hs⟩ pre op.cut post hsplit).named
  · rintro ⟨hnames, hshallow⟩
    obtain ⟨n, hn⟩ := hnest
    have hscoped : ∀ pre op post, ops = pre ++ op :: post →
        ∀ n, Nesting.run pre = some n → n.Scoped op := by
      intro pre op post hsplit n _
      have hmem : op ∈ ops := by
        rw [hsplit]
        simp
      exact Nesting.scoped_of_isMeasure (hops op hmem) n
    obtain ⟨s, c, w, hs, hc, hS, -, hM, hds⟩ := run_mirrors pID hscoped hnames hn
    refine ⟨s, c, hs, (InProc.run_linesFit_iff hs).mpr hshallow, hc, fun ds hsent => ?_⟩
    obtain ⟨answers, hrun⟩ := hds ds hsent
    obtain ⟨service, hservice, hsim⟩ := Service.run_sim_back hrun
    refine ⟨service, hservice, ?_, hS.view_measured hsim.rep hM.tree⟩
    refine Service.run_linesFit_of_calls (fun d hd => ?_) hservice
    apply Client.run_callMessages hscoped hn hc
    rw [← hsent]
    exact List.mem_map_of_mem hd

/-- One thread calls `f` inside `f`, another one `g` with a threshold. -/
def recursiveCalls : List Op :=
  [.start threadA nameF none { timeStamp := 10 }, .start threadB nameG (some 5) { timeStamp := 11 },
    .start threadA nameF none { timeStamp := 12 }, .stop threadA 2 { timeStamp := 15 },
    .stop threadB 1 { timeStamp := 16 }]

theorem recursiveCalls_refined :
    ∃ s c, InProc.run 42 (recursiveCalls.map Op.cut) = .ok s ∧ s.mem.LinesFit ∧
      Client.run 42 recursiveCalls = .ok c ∧
      ∀ ds : List Service.Delivery, ds.map (·.msg) = c.sent →
        ∃ service, Service.run ds = .ok service ∧ service.mem.LinesFit ∧ ∀ tID,
          (service.mem.view 42 tID).map CallTree.measured =
            (s.mem.view 42 tID).map CallTree.measured := by
  refine (service_refines_iff 42 recursiveCalls (by decide) ⟨_, rfl⟩).mpr ⟨by decide, ?_⟩
  exact fun pre op post hsplit => op.shallow_of_short hsplit (by decide)

/-- A call without a name: neither build survives it. -/
theorem unnamed_unrefined : ¬ ∀ (pID : pid_t) (ops : List Op), (∀ op ∈ ops, op.isMeasure) →
    WellNested ops → ∃ s c, InProc.run pID (ops.map Op.cut) = .ok s ∧ Client.run pID ops = .ok c ∧
      ∀ ds : List Service.Delivery, ds.map (·.msg) = c.sent →
        ∃ service, Service.run ds = .ok service ∧ ∀ tID,
          (service.mem.view pID tID).map CallTree.measured =
            (s.mem.view pID tID).map CallTree.measured := by
  intro hall
  obtain ⟨s, -, hs, -⟩ := hall 42 [.start threadA ⟨[], by decide⟩ none {}] (by decide) ⟨_, rfl⟩
  exact InProc.run_ok_iff.mp ⟨s, hs⟩ [] _ [] rfl rfl

end RdkPerf

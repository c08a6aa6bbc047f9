import RdkPerf.Proof.Answers
import RdkPerf.Proof.Log

/-!
# The log of the service is a function of its messages

Any bytes may come out of the queue. What the service prints of them is what the world they build
says: an `eReportThread` shows one tree, an `eReportProcess` those that are left of a process, and
everything else shows nothing (`run_log`).
-/

namespace RdkPerf

open Lib

namespace Service

/-- The log of a service that handled messages from its start on: the trees it has then, the marks
    of its clocks, and the lines. -/
inductive Logs : List Delivery → World → LastMark → List Printed → Prop where
  | nil : Logs [] .init .init []
  | message {ds d w w' b mark mark' log lines} (h : Logs ds w mark log)
      (hw : w.handle d.msg = .ok (w', b))
      (hprints : w.MessagePrints mark d.msg d.env lines mark') :
      Logs (ds ++ [d]) w' mark' (log ++ lines)

section Handlers

variable {m m' : Mem} {w : World} {mark : LastMark} {env : Env} {b : Bool}

/-- An entry prints nothing, and may mark a clock. -/
theorem handleEntry_silent (h : Rep m w) (hc : Clocked m mark) {msg : EntryMessage}
    (hrun : handleEntry m msg env = .ok (m', b)) :
    m'.log = m.log ∧ Clocked m' (w.markEntered mark msg.pID msg.tID env) := by
  refine ⟨handleEntry_log hrun, ?_⟩
  obtain ⟨⟨m₁, pTree⟩, hget, hrun⟩ := bind_eq_ok.mp hrun
  have hc₁ := getTree_clocked h hc hget
  cases pTree with
  | none =>
    obtain ⟨rfl, -⟩ := Prod.mk.inj (Except.ok.inj hrun)
    exact hc₁
  | some t =>
    obtain ⟨⟨m₂, pNode⟩, hadd, hrun⟩ := bind_eq_ok.mp hrun
    have hc₂ := hc₁.of_processMap (PerfTree.addNodeEntry_treesOnly hadd).processMap
    dsimp only at hrun
    split at hrun
    · obtain ⟨rfl, -⟩ := Prod.mk.inj (Except.ok.inj hrun)
      exact hc₂.of_processMap rfl
    · obtain ⟨rfl, -⟩ := Prod.mk.inj (Except.ok.inj hrun)
      exact hc₂

theorem handleThreshold_silent (h : Rep m w) (hc : Clocked m mark) {msg : ThresholdMessage}
    (hrun : handleThreshold m msg env = .ok (m', b)) : m'.log = m.log ∧ Clocked m' mark := by
  refine ⟨handleThreshold_log hrun, ?_⟩
  rw [handleThreshold, getTree_find h, ok_bind] at hrun
  cases ht : m.treePtr msg.pID msg.tID with
  | none =>
    rw [ht] at hrun
    obtain ⟨rfl, -⟩ := Prod.mk.inj (Except.ok.inj hrun)
    exact hc
  | some t =>
    simp only [ht] at hrun
    obtain ⟨pNode, -, hrun⟩ := bind_eq_ok.mp hrun
    split at hrun
    · obtain ⟨_, -, hrun⟩ := bind_eq_ok.mp hrun
      obtain ⟨rfl, -⟩ := Prod.mk.inj (Except.ok.inj hrun)
      exact hc.of_processMap rfl
    · obtain ⟨rfl, -⟩ := Prod.mk.inj (Except.ok.inj hrun)
      exact hc

theorem handleExit_silent (h : Rep m w) (hc : Clocked m mark) {msg : ExitMessage}
    (hrun : handleExit m msg env = .ok (m', b)) : m'.log = m.log ∧ Clocked m' mark := by
  refine ⟨handleExit_log hrun, ?_⟩
  rw [handleExit, getTree_find h, ok_bind] at hrun
  cases ht : m.treePtr msg.pID msg.tID with
  | none =>
    rw [ht] at hrun
    obtain ⟨rfl, -⟩ := Prod.mk.inj (Except.ok.inj hrun)
    exact hc
  | some t =>
    simp only [ht] at hrun
    obtain ⟨pNode, -, hrun⟩ := bind_eq_ok.mp hrun
    obtain ⟨node, -, hrun⟩ := bind_eq_ok.mp hrun
    cases hname : msg.szName with
    | none => simp [hname] at hrun
    | some szName =>
      simp only [hname] at hrun
      split at hrun
      · obtain ⟨m₁, hinc, hrun⟩ := bind_eq_ok.mp hrun
        obtain ⟨m₂, hclose, hrun⟩ := bind_eq_ok.mp hrun
        obtain ⟨rfl, -⟩ := Prod.mk.inj (Except.ok.inj hrun)
        exact hc.of_processMap ((PerfNode.incrementData_treesOnly hinc).trans
          (PerfNode.closeNode_treesOnly hclose)).processMap
      · obtain ⟨rfl, -⟩ := Prod.mk.inj (Except.ok.inj hrun)
        exact hc

theorem handleReportThread_shows (h : Rep m w) (hc : Clocked m mark) {msg : ThreadMessage}
    (hrun : handleReportThread m msg env = .ok (m', b)) :
    ∃ lines, w.ThreadReport msg.pID msg.tID lines ∧ Gained m m' lines ∧ Clocked m' mark := by
  rw [handleReportThread, getTree_find h, ok_bind] at hrun
  cases ht : m.treePtr msg.pID msg.tID with
  | none =>
    rw [ht] at hrun
    obtain ⟨rfl, -⟩ := Prod.mk.inj (Except.ok.inj hrun)
    exact ⟨[], World.threadReport_none (h.absent ht), .nothing rfl, hc⟩
  | some t =>
    obtain ⟨r, ct, hA⟩ := h.present ht
    simp only [ht] at hrun
    obtain ⟨m₁, hm₁, hrun⟩ := bind_eq_ok.mp hrun
    obtain ⟨rfl, -⟩ := Prod.mk.inj (Except.ok.inj hrun)
    exact hA.threadReport hc hm₁

theorem handleReportProcess_shows (h : Rep m w) (hc : Clocked m mark) {msg : ProcessMessage}
    (hrun : handleReportProcess m msg env = .ok (m', b)) :
    ∃ lines mark', w.Report mark msg.pID env lines mark' ∧ Gained m m' lines ∧
      Clocked m' mark' := by
  unfold handleReportProcess at hrun
  cases hreg : w.registered msg.pID with
  | false =>
    rw [find_unregistered h hreg] at hrun
    obtain ⟨rfl, -⟩ := Prod.mk.inj (Except.ok.inj hrun)
    refine ⟨[], mark, ?_, .nothing rfl, hc⟩
    rw [World.Report, if_neg (by rw [hreg]; simp)]
    exact ⟨rfl, rfl⟩
  | true =>
    rw [find_registered h hreg] at hrun
    obtain ⟨_, -, hrun⟩ := bind_eq_ok.mp hrun
    obtain ⟨⟨m₁, b₁⟩, hclose, hrun⟩ := bind_eq_ok.mp hrun
    obtain ⟨m₂, hreport, hrun⟩ := bind_eq_ok.mp hrun
    obtain ⟨rfl, -⟩ := Prod.mk.inj (Except.ok.inj hrun)
    exact reportProcess_shows h hc hreg hclose hreport

theorem handleCloseThread_silent (hc : Clocked m mark) {msg : ThreadMessage}
    (hrun : handleCloseThread m msg = .ok (m', b)) : m'.log = m.log ∧ Clocked m' mark := by
  unfold handleCloseThread at hrun
  split at hrun
  · obtain ⟨rfl, -⟩ := Prod.mk.inj (Except.ok.inj hrun)
    exact ⟨rfl, hc⟩
  · exact PerfProcess.removeTree_silent hc hrun

theorem handleCloseProcess_silent (hc : Clocked m mark) {msg : ProcessMessage}
    (hrun : handleCloseProcess m msg = .ok (m', b)) : m'.log = m.log ∧ Clocked m' mark := by
  obtain ⟨m₁, hremove, hrun⟩ := bind_eq_ok.mp hrun
  obtain ⟨rfl, -⟩ := Prod.mk.inj (Except.ok.inj hrun)
  exact removeProcess_silent hc hremove

/-- **One message** prints what the world says. -/
theorem handleMessage_prints (h : Rep m w) (hc : Clocked m mark) {msg : PerfMessage}
    (hrun : handleMessage m msg env = .ok (m', b)) :
    ∃ lines mark', w.MessagePrints mark msg env lines mark' ∧ Gained m m' lines ∧
      Clocked m' mark' := by
  have hsilent : ∀ {mark'}, m'.log = m.log ∧ Clocked m' mark' →
      Gained m m' [] ∧ Clocked m' mark' := fun hm => ⟨.nothing hm.1, hm.2⟩
  unfold handleMessage at hrun
  unfold World.MessagePrints
  cases htype : MessageType.ofCode msg.type with
  | none =>
    rw [htype] at hrun
    obtain ⟨rfl, -⟩ := Prod.mk.inj (Except.ok.inj hrun)
    exact ⟨[], mark, ⟨rfl, rfl⟩, .nothing rfl, hc⟩
  | some type =>
    rw [htype] at hrun
    cases type with
    | eEntry => exact ⟨[], _, ⟨rfl, rfl⟩, hsilent (handleEntry_silent h hc hrun)⟩
    | eThreshold => exact ⟨[], mark, ⟨rfl, rfl⟩, hsilent (handleThreshold_silent h hc hrun)⟩
    | eExit => exact ⟨[], mark, ⟨rfl, rfl⟩, hsilent (handleExit_silent h hc hrun)⟩
    | eReportThread =>
      obtain ⟨lines, hlines, hlog, hc'⟩ := handleReportThread_shows h hc hrun
      exact ⟨lines, mark, ⟨hlines, rfl⟩, hlog, hc'⟩
    | eReportProcess => exact handleReportProcess_shows h hc hrun
    | eCloseThread => exact ⟨[], mark, ⟨rfl, rfl⟩, hsilent (handleCloseThread_silent hc hrun)⟩
    | eCloseProcess => exact ⟨[], mark, ⟨rfl, rfl⟩, hsilent (handleCloseProcess_silent hc hrun)⟩
    | eNoMessage | eExitQueue | eMaxType =>
      obtain ⟨rfl, -⟩ := Prod.mk.inj (Except.ok.inj hrun)
      exact ⟨[], mark, ⟨rfl, rfl⟩, .nothing rfl, hc⟩

end Handlers

/-! ## Runs -/

section Runs

variable {ds : List Delivery} {d : Delivery} {w : World} {mark : LastMark} {log : List Printed}

/-- The last message of a log. -/
theorem Logs.last (h : Logs (ds ++ [d]) w mark log) :
    ∃ w₀ mark₀ log₀ lines b, Logs ds w₀ mark₀ log₀ ∧ w₀.handle d.msg = .ok (w, b) ∧
      w₀.MessagePrints mark₀ d.msg d.env lines mark ∧ log = log₀ ++ lines := by
  generalize hds : ds ++ [d] = ds' at h
  cases h with
  | nil => exact absurd hds (by simp)
  | message h hw hprints =>
    obtain ⟨rfl, hd⟩ := List.append_inj' hds rfl
    obtain rfl := List.singleton_inj.mp hd
    exact ⟨_, _, _, _, _, h, hw, hprints, rfl⟩

/-- There is one log. -/
theorem Logs.unique {w' : World} {mark' : LastMark} {log' : List Printed} (h : Logs ds w mark log)
    (h' : Logs ds w' mark' log') : w = w' ∧ mark = mark' ∧ log = log' := by
  induction h generalizing w' mark' log' with
  | nil =>
    generalize hds : ([] : List Delivery) = ds at h'
    cases h' with
    | nil => exact ⟨rfl, rfl, rfl⟩
    | message _ _ _ => exact absurd hds (by simp)
  | message h hw hprints ih =>
    obtain ⟨w₀, mark₀, log₀, lines, b, h₀, hw', hprints', rfl⟩ := h'.last
    obtain ⟨rfl, rfl, rfl⟩ := ih h₀
    obtain ⟨rfl, rfl⟩ := hprints.unique hprints'
    obtain ⟨rfl, -⟩ := Prod.mk.inj (Except.ok.inj (hw.symm.trans hw'))
    exact ⟨rfl, rfl, rfl⟩

/-- What is printed goes with the trees and the clocks. -/
theorem run_logs {s : State} (hs : run ds = .ok s) : ∃ w mark, Rep s.mem w ∧
    Clocked s.mem mark ∧ Logs ds w mark (s.mem.log.map Printed.seen) := by
  induction ds using List.reverseRecOn generalizing s with
  | nil =>
    obtain rfl := Except.ok.inj hs
    refine ⟨.init, .init, .init, fun p proc hproc => ?_, .nil⟩
    rw [show State.init.mem.processMap = ∅ from rfl, Std.ExtTreeMap.getElem?_empty] at hproc
    cases hproc
  | append_singleton ds d ih =>
    obtain ⟨s₀, hs₀, hstep⟩ := foldlM_concat_ok.mp hs
    obtain ⟨w, mark, hrep, hc, hlogs⟩ := ih hs₀
    obtain ⟨⟨m, b⟩, hhandle, hstep⟩ := bind_eq_ok.mp hstep
    obtain rfl := Except.ok.inj hstep
    obtain ⟨lines, mark', hprints, hgained, hc'⟩ := handleMessage_prints hrep hc hhandle
    have href := handleMessage_refines hrep d.msg d.env
    cases hw : w.handle d.msg with
    | error e =>
      rw [hw] at href
      exact absurd (hhandle.symm.trans href) (by simp)
    | ok wb =>
      obtain ⟨w', b'⟩ := wb
      rw [hw] at href
      obtain ⟨m', hm', hE⟩ := href
      obtain ⟨rfl, rfl⟩ := Prod.mk.inj (Except.ok.inj (hhandle.symm.trans hm'))
      refine ⟨w', mark', hE.rep, hc', ?_⟩
      rw [show m.log.map Printed.seen = s₀.mem.log.map Printed.seen ++ lines from hgained]
      exact .message hlogs hw hprints

end Runs
end Service

/-- **The log of the service is the one its messages call for**, whatever bytes they are. -/
theorem service_log (ds : List Service.Delivery) (s : Service.State)
    (hs : Service.run ds = .ok s) :
    ∃ w mark, (∀ pID tID, s.mem.view pID tID = w.tree pID tID) ∧
      Service.Logs ds w mark (s.mem.log.map Printed.seen) ∧
      ∀ w' mark' log, Service.Logs ds w' mark' log → log = s.mem.log.map Printed.seen := by
  obtain ⟨w, mark, hrep, -, hlogs⟩ := Service.run_logs hs
  exact ⟨w, mark, hrep.view, hlogs, fun w' mark' log h => (h.unique hlogs).2.2⟩

/-- Two calls are entered and one is left, and the thread and its process are reported. -/
def reportedMessages : List Service.Delivery :=
  Service.handed ⟨threadA, 42⟩ .eEntry nameF ++ Service.handed ⟨threadA, 42⟩ .eEntry nameG ++
    Service.handed ⟨threadA, 42⟩ .eExit nameG ++
    Service.handed ⟨threadA, 42⟩ .eReportThread nameG ++
    Service.handed ⟨threadA, 42⟩ .eReportProcess nameG

theorem reportedMessages_log : ∃ s w mark, Service.run reportedMessages = .ok s ∧
    s.mem.log.length = 10 ∧ (∀ pID tID, s.mem.view pID tID = w.tree pID tID) ∧
      Service.Logs reportedMessages w mark (s.mem.log.map Printed.seen) := by
  obtain ⟨s, hs, hlength⟩ := ok_of_toOption_bind
    (show (Service.run reportedMessages).toOption.bind (fun s => some s.mem.log.length) = some 10 by
      decide)
  obtain ⟨w, mark, hview, hlogs, -⟩ := service_log reportedMessages s hs
  exact ⟨s, w, mark, hs, Option.some.inj hlength, hview, hlogs⟩

end RdkPerf

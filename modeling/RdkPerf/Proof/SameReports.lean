import RdkPerf.Proof.OwnCalls
import RdkPerf.Proof.ServiceLog

/-!
# The builds report the same

`follows_inProc` is about trees; a reader has the log. The service's differs in what its own clocks
count and in its threshold lines, of which there are none. The rest of it is the log of the
in-process build: the same reports, of the same threads, with the same figures
(`same_reports`).
-/

namespace RdkPerf

open Lib

/-- A line of a report, less what a clock has counted. -/
def Printed.untimed : Printed → Option Printed
  | .process size idProcess => some (.process size idProcess)
  | .cpu _ _ => some (.cpu 0 0)
  | .tree _ idThread threadName _ => some (.tree 0 idThread threadName 0)
  | .totals nLevel stats => some (.totals nLevel stats)
  | .delta _ _ _ => none
  | .threshold _ _ _ _ => none

/-- The reports of a log. -/
def reportsOf (log : List Printed) : List Printed := log.filterMap Printed.untimed

@[simp] theorem reportsOf_nil : reportsOf [] = [] := rfl

@[simp] theorem reportsOf_append (log log' : List Printed) :
    reportsOf (log ++ log') = reportsOf log ++ reportsOf log' := List.filterMap_append

@[simp] theorem reportsOf_process (size : Nat) (idProcess : UInt32) (log : List Printed) :
    reportsOf (.process size idProcess :: log) = .process size idProcess :: reportsOf log := rfl

@[simp] theorem reportsOf_cpu (user system : UInt64) (log : List Printed) :
    reportsOf (.cpu user system :: log) = .cpu 0 0 :: reportsOf log := rfl

@[simp] theorem reportsOf_tree (this : TreePtr) (idThread : UInt32) (threadName : Name)
    (ms : UInt32) (log : List Printed) : reportsOf (.tree this idThread threadName ms :: log) =
      .tree 0 idThread threadName 0 :: reportsOf log := rfl

theorem reportsOf_flatten (blocks : List (List Printed)) :
    reportsOf blocks.flatten = (blocks.map reportsOf).flatten := by
  induction blocks with
  | nil => rfl
  | cons block blocks ih =>
    rw [List.flatten_cons, reportsOf_append, ih, List.map_cons, List.flatten_cons]

/-- Addresses are no part of a report. -/
theorem reportsOf_seen (log : List Printed) : reportsOf (log.map Printed.seen) = reportsOf log := by
  rw [reportsOf, List.filterMap_map]
  congr 1
  funext line
  cases line <;> rfl

theorem Gained.reportsOf {m m' : Mem} {lines : List Printed} (h : Gained m m' lines) :
    reportsOf m'.log = reportsOf m.log ++ reportsOf lines := by
  rw [← reportsOf_seen m'.log, h, reportsOf_append, reportsOf_seen]

/-! ## Thresholds are not shown -/

namespace CallTree

variable {ct ct' : CallTree} {b : Bool} {π : Path} {ms ms' : UInt32} {lines lines' : List Printed}

theorem Shown.measured (h : ct.Shown b π lines) : ct.measured.Shown b π lines := by
  obtain ⟨paths, hpaths, rfl⟩ := h
  refine ⟨paths, ?_, ?_⟩
  · have hnode : (fun τ => ct.measured.node (τ ++ π) ≠ none) = fun τ => ct.node (τ ++ π) ≠ none := by
      funext τ
      exact propext (not_congr Option.map_eq_none_iff)
    rw [hnode]
    exact hpaths
  · congr 1
    funext τ
    show _ = Option.map _ (Option.map _ (ct.node (τ ++ π)))
    rw [Option.map_map]
    rfl

/-- Trees that differ in thresholds only are reported alike. -/
theorem Reported.agree (h : ct.Reported ms lines) (h' : ct'.Reported ms' lines')
    (hct : ct.measured = ct'.measured) : reportsOf lines = reportsOf lines' := by
  obtain ⟨below, hbelow, rfl⟩ := h
  obtain ⟨below', hbelow', rfl⟩ := h'
  have hsame := hbelow'.measured
  rw [← hct] at hsame
  rw [hbelow.measured.unique hsame]
  have hid : ct.measured.idThread = ct'.measured.idThread := by rw [hct]
  have hname : ct.measured.shownName = ct'.measured.shownName := by rw [hct]
  rw [reportsOf_tree, reportsOf_tree, show ct.idThread = ct'.idThread from hid,
    show ct.shownName = ct'.shownName from hname]

end CallTree

/-! ## Worlds that differ in thresholds only -/

namespace World

variable {w w' : World} {pID : pid_t} {lines lines' : List Printed}

/-- The process is the same in both, but for thresholds. -/
structure Alike (pID : pid_t) (w w' : World) : Prop where
  registered : w.registered pID = w'.registered pID
  tree : ∀ tID, (w.tree pID tID).map CallTree.measured = (w'.tree pID tID).map CallTree.measured

theorem Alike.closeInactive (h : Alike pID w w') :
    Alike pID (w.closeInactive pID) (w'.closeInactive pID) := by
  refine ⟨h.registered, fun tID => ?_⟩
  have hkeep : ∀ o : Option CallTree,
      (o.bind fun ct => if ct.inactive then none else some ct).map CallTree.measured =
        (o.map CallTree.measured).bind fun ct => if ct.inactive then none else some ct := by
    intro o
    cases o with
    | none => rfl
    | some ct =>
      rw [Option.bind_some, Option.map_some, Option.bind_some, CallTree.measured_inactive]
      split <;> rfl
  simp only [World.closeInactive, sweep_tree, if_true]
  rw [hkeep, hkeep, h.tree]

theorem Alike.present (h : Alike pID w w') (tID : pthread_t) :
    w.tree pID tID ≠ none ↔ w'.tree pID tID ≠ none := by
  apply not_congr
  have htree := h.tree tID
  constructor
  · intro hnone
    rw [hnone] at htree
    exact Option.map_eq_none_iff.mp htree.symm
  · intro hnone
    rw [hnone] at htree
    exact Option.map_eq_none_iff.mp htree

theorem Alike.measured (h : Alike pID w w') {tID : pthread_t} {ct ct' : CallTree}
    (hct : w.tree pID tID = some ct) (hct' : w'.tree pID tID = some ct') :
    ct.measured = ct'.measured := by
  have htree := h.tree tID
  rw [hct, hct'] at htree
  exact Option.some.inj htree

theorem ThreadReport.agree {tID : pthread_t} (h : Alike pID w w')
    (hlines : w.ThreadReport pID tID lines) (hlines' : w'.ThreadReport pID tID lines') :
    reportsOf lines = reportsOf lines' := by
  cases hct : w.tree pID tID with
  | none =>
    have hct' : w'.tree pID tID = none := by
      by_contra hne
      exact (h.present tID).mpr hne hct
    rw [hlines.2 hct, hlines'.2 hct']
  | some ct =>
    obtain ⟨ct', hct'⟩ := Option.ne_none_iff_exists'.mp ((h.present tID).mp (by rw [hct]; simp))
    exact (hlines.1 ct hct).agree (hlines'.1 ct' hct') (h.measured hct hct')

/-- What the clocks show does not matter. -/
theorem ProcessReported.agree {mark elapsed mark' elapsed' : Reading} {tIDs tIDs' : List pthread_t}
    (h : Alike pID w w') (hlines : w.ProcessReported pID mark elapsed tIDs lines)
    (hlines' : w'.ProcessReported pID mark' elapsed' tIDs' lines') :
    reportsOf lines = reportsOf lines' := by
  obtain ⟨hsorted, hmem, blocks, hblocks, rfl⟩ := hlines
  obtain ⟨hsorted', hmem', blocks', hblocks', rfl⟩ := hlines'
  obtain rfl : tIDs = tIDs' := ascending_unique (f := id) hsorted hsorted' fun tID =>
    (hmem tID).trans ((h.present tID).trans (hmem' tID).symm)
  have hsame : blocks.map reportsOf = blocks'.map reportsOf := by
    clear hsorted hmem hsorted' hmem'
    induction hblocks generalizing blocks' with
    | nil =>
      cases hblocks'
      rfl
    | cons hblock _ ih =>
      cases hblocks' with
      | cons hblock' hrest' =>
        obtain ⟨ct, hct, hblock⟩ := hblock
        obtain ⟨ct', hct', hblock'⟩ := hblock'
        rw [List.map_cons, List.map_cons, ih _ hrest', hblock.agree hblock' (h.measured hct hct')]
  rw [reportsOf_process, reportsOf_process]
  split
  · rfl
  · rw [reportsOf_cpu, reportsOf_cpu, reportsOf_flatten, reportsOf_flatten, hsame]

theorem Report.agree {mark mark' mark₁ mark₁' : LastMark} {env env' : Env} (h : Alike pID w w')
    (hlines : w.Report mark pID env lines mark₁) (hlines' : w'.Report mark' pID env' lines' mark₁') :
    reportsOf lines = reportsOf lines' := by
  unfold Report at hlines hlines'
  rw [← h.registered] at hlines'
  split at hlines
  · next hreg =>
    rw [if_pos hreg] at hlines'
    obtain ⟨tIDs, hlines, -⟩ := hlines
    obtain ⟨tIDs', hlines', -⟩ := hlines'
    exact hlines.agree h.closeInactive hlines'
  · next hreg =>
    rw [if_neg hreg] at hlines'
    rw [hlines.1, hlines'.1]

end World

/-! ## One call -/

/-- The trees of a ledger, and a service that shows them. -/
theorem Shows.alike {pID : pid_t} {L : Ledger} {w : World} (h : Shows pID L w) :
    World.Alike pID (L.world pID) w := by
  refine ⟨?_, fun tID => ?_⟩
  · rw [h.registered]
    simp [Ledger.world]
  · rw [h.tree, Ledger.world_tree_self, Option.map_map]
    exact Option.map_congr fun l _ => ThreadLog.measured_callTree l

section OneCall

variable {pID : pid_t} {ops : List Op} {s : InProc} {c c' : Client} {w : World} {n : Nesting}
  {mark mark' markS : LastMark} {lines : List Printed} {v v' : Service.State}
  {ds : List Service.Delivery} {op : Op}

/-- A control call sends nothing, and the service prints nothing; or it sends one message, and the
    service prints what that calls for. -/
theorem control_prints (caller : Caller) (type : MessageType) (hrep : Rep v.mem w)
    (hclock : Clocked v.mem markS) (hcontrol : type ≠ .eNoMessage ∧ type ≠ .eMaxType)
    (hc : c.sendMessage caller type none 0 0 = .ok c')
    (hds : c'.sent = c.sent ++ ds.map (·.msg)) (hrun : ds.foldlM Service.step v = .ok v') :
    (c.queue = false ∧ reportsOf v'.mem.log = reportsOf v.mem.log) ∨
      ∃ msg env mark' lines', PerfMsgQueue.sendMessage ⟨caller, c.pID⟩ type none 0 0 =
          .ok (some msg) ∧ w.MessagePrints markS msg env lines' mark' ∧
        reportsOf v'.mem.log = reportsOf v.mem.log ++ reportsOf lines' := by
  rcases Client.sendMessage_ok hc hcontrol with ⟨hqueue, rfl⟩ | ⟨-, msg, hmsg, rfl⟩
  · have hnil : ds.map (·.msg) = [] := List.self_eq_append_right.mp hds
    obtain rfl := List.map_eq_nil_iff.mp hnil
    obtain rfl := Except.ok.inj hrun
    exact Or.inl ⟨hqueue, rfl⟩
  · have hone : [msg] = ds.map (·.msg) := List.append_cancel_left hds
    obtain ⟨d, rfl, rfl⟩ := List.map_eq_singleton_iff.mp hone.symm
    rw [List.foldlM_cons] at hrun
    obtain ⟨v₁, hstep, hrun⟩ := bind_eq_ok.mp hrun
    obtain rfl := Except.ok.inj hrun
    obtain ⟨⟨m, b⟩, hhandle, hstep⟩ := bind_eq_ok.mp hstep
    obtain rfl := Except.ok.inj hstep
    obtain ⟨lines', mark', hprints, hgained, -⟩ := Service.handleMessage_prints hrep hclock hhandle
    exact Or.inr ⟨d.msg, d.env, mark', lines', hmsg, hprints, hgained.reportsOf⟩

/-- A call on a record shows nothing in either log. -/
theorem Prints.scoped (hprints : Prints pID ops mark op lines mark') (hop : n.Scoped op) :
    reportsOf lines = [] := by
  cases op with
  | start caller szName nThresholdInUS env => rw [hprints.1, reportsOf_nil]
  | setThreshold caller h nThresholdInUS => rw [hprints.1, reportsOf_nil]
  | stop caller h env =>
    by_cases hex : Exceeds ops h env
    · obtain ⟨tID, l, calls, d, below, -, -, -, ⟨paths, -, rfl⟩, rfl⟩ := hprints.1 hex
      rw [reportsOf, List.filterMap_cons, Printed.untimed, List.filterMap_filterMap]
      apply List.filterMap_eq_nil_iff.mpr
      intro τ _
      cases (l.stop h env.timeStamp).callTree.node (τ ++ pathOf calls) <;> rfl
    · rw [hprints.2.1 hex, reportsOf_nil]
  | reportProcess _ _ _ | reportThread _ _ | closeThread _ _ | closeProcess _ _ => exact hop.elim

/-- **One call** adds the same reports to both logs. -/
theorem Booked.step_reports (hs : InProc.run pID (ops.map Op.cut) = .ok s)
    (hB : Booked pID (Ledger.run pID (ops.map Op.cut)) c)
    (hw : Shows pID (Ledger.run pID (ops.map Op.cut)) w) (hown : n.Own pID op)
    (hrep : Rep v.mem w) (hclock : Clocked v.mem markS) (hc : c.step op = .ok c')
    (hds : c'.sent = c.sent ++ ds.map (·.msg)) (hrun : ds.foldlM Service.step v = .ok v')
    (hprints : Prints pID (ops.map Op.cut) mark op.cut lines mark') :
    reportsOf v'.mem.log = reportsOf v.mem.log ++ reportsOf lines := by
  have hscoped : n.Scoped op →
      reportsOf v'.mem.log = reportsOf v.mem.log ++ reportsOf lines := by
    intro hop
    obtain ⟨msgs, hsent, hcalls⟩ := RdkPerf.step_sends hop hc
    obtain rfl := List.append_cancel_left (hsent.symm.trans hds)
    rw [run_callMessages_log (fun d hd => hcalls _ (List.mem_map_of_mem hd)) hrun,
      hprints.scoped (Nesting.scoped_cut hop), List.append_nil]
  have hnone : c.queue = false → ∀ tID,
      ((Ledger.run pID (ops.map Op.cut)).world pID).tree pID tID = none := by
    intro hqueue tID
    rw [Ledger.world_tree_self, (InProc.run_sim hs).thread_none (hB.unopened hqueue)]
    rfl
  cases op with
  | start caller szName nThresholdInUS env => exact hscoped trivial
  | stop caller h env => exact hscoped trivial
  | setThreshold caller h nThresholdInUS => exact hscoped hown
  | reportThread caller tID =>
    obtain rfl : tID = caller.tid := hown
    rcases control_prints caller .eReportThread hrep hclock (by simp) hc hds hrun
      with ⟨hqueue, hlog⟩ | ⟨msg, env, mark₁, lines', hmsg, hmessage, hlog⟩
    · rw [hlog, hprints.1.2 (hnone hqueue caller.tid), reportsOf_nil, List.append_nil]
    · obtain ⟨hcode, hdata⟩ := PerfMsgQueue.sent_reportThread hmsg
      rw [World.MessagePrints, hcode, MessageType.ofCode_code] at hmessage
      simp only [hdata, hB.self] at hmessage
      rw [hlog, World.ThreadReport.agree hw.alike hprints.1 hmessage.1]
  | reportProcess caller p env =>
    obtain rfl : p = pID := hown
    rcases control_prints caller .eReportProcess hrep hclock (by simp) hc hds hrun
      with ⟨hqueue, hlog⟩ | ⟨msg, env', mark₁, lines', hmsg, hmessage, hlog⟩
    · have hreg : ((Ledger.run p (ops.map Op.cut)).world p).registered p = false := by
        simp [Ledger.world, hB.unopened hqueue]
      have hlines : World.Report _ _ _ _ _ _ := hprints
      rw [World.Report, if_neg (by rw [hreg]; simp)] at hlines
      rw [hlog, hlines.1, reportsOf_nil, List.append_nil]
    · obtain ⟨hcode, hdata⟩ := PerfMsgQueue.sent_reportProcess hmsg
      rw [World.MessagePrints, hcode, MessageType.ofCode_code] at hmessage
      simp only [hdata, hB.self] at hmessage
      rw [hlog, World.Report.agree hw.alike hprints hmessage]
  | closeThread caller tID =>
    rw [hprints.1, reportsOf_nil, List.append_nil]
    rcases control_prints caller .eCloseThread hrep hclock (by simp) hc hds hrun
      with ⟨-, hlog⟩ | ⟨msg, env, mark₁, lines', hmsg, hmessage, hlog⟩
    · exact hlog
    · rw [World.MessagePrints, (PerfMsgQueue.sent_closeThread hmsg).1,
        MessageType.ofCode_code] at hmessage
      rw [hlog, hmessage.1, reportsOf_nil, List.append_nil]
  | closeProcess caller p =>
    rw [hprints.1, reportsOf_nil, List.append_nil]
    rcases control_prints caller .eCloseProcess hrep hclock (by simp) hc hds hrun
      with ⟨-, hlog⟩ | ⟨msg, env, mark₁, lines', hmsg, hmessage, hlog⟩
    · exact hlog
    · rw [World.MessagePrints, (PerfMsgQueue.sent_closeProcess hmsg).1,
        MessageType.ofCode_code] at hmessage
      rw [hlog, hmessage.1, reportsOf_nil, List.append_nil]

end OneCall

/-! ## Runs -/

section Runs

variable {pID : pid_t} {ops : List Op} {s : InProc} {c : Client} {ds : List Service.Delivery}
  {v : Service.State}

/-- A service that has handled what the process sent shows the ledger. -/
theorem Service.run_shows {w : World} (hhandled : World.init.handleAll (ds.map (·.msg)) = .ok w)
    (hv : Service.run ds = .ok v) : ∃ mark, Rep v.mem w ∧ Clocked v.mem mark := by
  obtain ⟨w', mark, -, hclock, -⟩ := Service.run_logs hv
  obtain ⟨answers, hrun⟩ := World.foldlM_step_of_handleAll [] hhandled
  obtain ⟨v', hv', hsim⟩ := Service.run_sim_back hrun
  obtain rfl := Except.ok.inj (hv.symm.trans hv')
  exact ⟨mark, hsim.rep, hclock⟩

theorem run_reports (hops : OwnCalls pID ops) (hs : InProc.run pID (ops.map Op.cut) = .ok s)
    (hc : Client.run pID ops = .ok c) (hds : c.sent = ds.map (·.msg))
    (hv : Service.run ds = .ok v) : reportsOf v.mem.log = reportsOf s.mem.log := by
  induction ops using List.reverseRecOn generalizing s c ds v with
  | nil =>
    obtain rfl := Except.ok.inj hs
    obtain rfl := Except.ok.inj hc
    obtain rfl := List.map_eq_nil_iff.mp hds.symm
    obtain rfl := Except.ok.inj hv
    rfl
  | append_singleton ops op ih =>
    rw [List.map_append, List.map_singleton] at hs
    obtain ⟨s₀, hs₀, hop⟩ := foldlM_concat_ok.mp hs
    obtain ⟨c₀, hc₀, hstep⟩ := foldlM_concat_ok.mp hc
    obtain ⟨n, hn⟩ := hops.left.1
    obtain ⟨-, c₁, w, hc₁, hB, hw, hhandled⟩ := run_own hops.left hn hs₀
    obtain rfl := Except.ok.inj (hc₀.symm.trans hc₁)
    -- the messages of the last call are the last deliveries
    obtain ⟨msgs, hsends⟩ := Client.step_sends hstep
    obtain ⟨ds₀, ds₁, rfl, hds₀, hds₁⟩ := List.map_eq_append_iff.mp (hds.symm.trans hsends.sent)
    obtain ⟨v₀, hv₀, hrun⟩ := foldlM_append_ok.mp hv
    rw [← hds₀] at hhandled
    obtain ⟨markS, hrep, hclock⟩ := Service.run_shows hhandled hv₀
    obtain ⟨mark, hclock₀, -⟩ := InProc.run_logs hs₀
    obtain ⟨lines, mark', hprints, hgained, -⟩ := step_prints hs₀ hclock₀ hop
    have hown := (forall_places_concat.mp hops.2).2 n hn
    have hsent := hsends.sent
    rw [← hds₁] at hsent
    rw [hB.step_reports hs₀ hw hown hrep hclock hstep hsent hrun hprints, hgained.reportsOf,
      ih hops.left hs₀ hc₀ hds₀.symm hv₀]

end Runs

/-- **The builds report the same.** Once the service has handled what the process sent, its log
    holds the reports of the in-process log, line for line, but for what a clock has counted. -/
theorem same_reports (pID : pid_t) (ops : List Op) (s : InProc) (hops : OwnCalls pID ops)
    (hs : InProc.run pID (ops.map Op.cut) = .ok s) :
    ∃ c, Client.run pID ops = .ok c ∧
      ∀ ds : List Service.Delivery, ds.map (·.msg) = c.sent →
        ∃ service, Service.run ds = .ok service ∧
          reportsOf service.mem.log = reportsOf s.mem.log := by
  obtain ⟨n, hn⟩ := hops.1
  obtain ⟨-, c, w, hc, -, hw, hsent⟩ := run_own hops hn hs
  refine ⟨c, hc, fun ds hds => ?_⟩
  rw [← hds] at hsent
  obtain ⟨service, hservice, -⟩ := hw.service hs hsent
  exact ⟨service, hservice, run_reports hops hs hc hds.symm hservice⟩

theorem reportedAndClosed_reports : ∃ s c, InProc.run 42 (reportedAndClosed.map Op.cut) = .ok s ∧
    (reportsOf s.mem.log).length = 8 ∧ Client.run 42 reportedAndClosed = .ok c ∧
      ∀ ds : List Service.Delivery, ds.map (·.msg) = c.sent →
        ∃ service, Service.run ds = .ok service ∧
          reportsOf service.mem.log = reportsOf s.mem.log := by
  obtain ⟨s, hs, hlength⟩ := ok_of_toOption_bind
    (show (InProc.run 42 (reportedAndClosed.map Op.cut)).toOption.bind
      (fun s => some (reportsOf s.mem.log).length) = some 8 by decide)
  obtain ⟨c, hc, hreports⟩ := same_reports 42 reportedAndClosed s reportedAndClosed_own hs
  exact ⟨s, c, hs, Option.some.inj hlength, hc, hreports⟩

end RdkPerf

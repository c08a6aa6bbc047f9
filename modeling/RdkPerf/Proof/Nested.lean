import RdkPerf.Proof.InProcSim
import RdkPerf.Spec.Figures

/-!
# Well-nested runs

In a well-nested run the frames of a thread are its open records, with nothing stale between them
(`Nests`), so a stop always closes the top of the stack. Such a run has an outcome (`run_nested`),
and its logs are `Balanced`: what is open now, and what was left since the last report, is what was
open at the report and what was entered since.
-/

namespace RdkPerf

open Lib

namespace Ledger

variable {pID : pid_t} {ops : List Op} {L : Ledger} {tID : pthread_t}

/-- Without a removal the process is registered from the first start on. -/
theorem registered_eq (hops : ∀ op ∈ ops, op.isClose = false) :
    (run pID ops).registered = ops.any Op.isStart := by
  induction ops using List.reverseRecOn with
  | nil => rfl
  | append_singleton ops op ih =>
    have ih' := ih fun op' hmem => hops op' (List.mem_append_left _ hmem)
    have hop := hops op (by simp)
    rw [run_concat, List.any_append]
    cases op with
    | start caller szName nThresholdInUS env => simp [step, Op.isStart]
    | stop caller h env => simpa [step, Op.isStart] using ih'
    | setThreshold caller h nThresholdInUS => simpa [step, Op.isStart] using ih'
    | reportProcess caller p env =>
      simp only [step]
      split <;> simpa [reportThreads, Op.isStart] using ih'
    | reportThread caller s => simpa [step, Op.isStart] using ih'
    | closeThread caller s => exact absurd hop (by simp [Op.isClose])
    | closeProcess caller p => exact absurd hop (by simp [Op.isClose])

end Ledger

/-! ## The open records are the frames -/

structure Nests (n : Nesting) (L : Ledger) : Prop where
  next : n.next = L.next
  handles : ∀ tID, (L.frames tID).map (·.handle) = (n.handles tID).map some

namespace Nests

variable {pID : pid_t} {s : InProc} {L : Ledger} {n n' : Nesting} {tID : pthread_t} {h : Handle}

theorem init : Nests .init .init := ⟨rfl, fun _ => rfl⟩

/-- The innermost open record has the frame on top. -/
theorem top (hN : Nests n L) {rest : List Handle} (hh : n.handles tID = h :: rest) :
    ∃ l f fs, L.thread tID = some l ∧ l.frames = f :: fs ∧ f.handle = some h ∧
      fs.map (·.handle) = rest.map some := by
  have hf := hN.handles tID
  rw [hh] at hf
  cases hl : L.thread tID with
  | none =>
    rw [Ledger.frames, hl] at hf
    exact absurd hf (by simp)
  | some l =>
    rw [Ledger.frames_of_some hl] at hf
    cases hfs : l.frames with
    | nil =>
      rw [hfs] at hf
      exact absurd hf (by simp)
    | cons f fs =>
      rw [hfs, List.map_cons, List.map_cons] at hf
      obtain ⟨hf₁, hf₂⟩ := List.cons.inj hf
      exact ⟨l, f, fs, rfl, hfs, hf₁, hf₂⟩

/-- A nested stop pops, and closes what is open. -/
theorem stop_top (hN : Nests n L) {rest : List Handle} (hh : n.handles tID = h :: rest) :
    ∃ l f fs, L.thread tID = some l ∧ l.frames = f :: fs ∧
      Frames.trail h l.frames = some (Frames.items l.frames) ∧ Frames.release h l.frames = fs ∧
      fs.map (·.handle) = rest.map some := by
  obtain ⟨l, f, fs, hl, hfs, hf, hrest⟩ := hN.top hh
  refine ⟨l, f, fs, hl, hfs, ?_, ?_, hrest⟩
  · rw [hfs, Frames.trail, if_pos hf]
  · rw [hfs, Frames.release, if_pos hf]

theorem start (hN : Nests n L) (caller : Caller) (szName : CString) (nThresholdInUS : Option UInt32)
    (env : Env) : Nests { n.set caller.tid (n.next :: n.handles caller.tid) with next := n.next + 1 }
      (L.step pID (.start caller szName nThresholdInUS env)) := by
  refine ⟨congrArg (· + 1) hN.next, fun u => ?_⟩
  show _ = (if u = caller.tid then n.next :: n.handles caller.tid else n.handles u).map some
  rw [Ledger.frames_start]
  by_cases hu : u = caller.tid
  · rw [if_pos hu, if_pos hu, List.map_cons, ← hN.handles, hN.next]
    rfl
  · rw [if_neg hu, if_neg hu]
    exact hN.handles u

theorem stop (hS : Sim pID s L) (hN : Nests n L) {caller : Caller} {rest : List Handle}
    (hh : n.handles caller.tid = h :: rest) (env : Env) :
    Nests (n.set caller.tid rest) (L.step pID (.stop caller h env)) := by
  obtain ⟨l, f, fs, hl, hfs, htrail, hrel, hrest⟩ := hN.stop_top hh
  have ho : OpenCall L caller.tid h (Frames.items l.frames) := ⟨l, hl, htrail⟩
  refine ⟨hN.next, fun u => ?_⟩
  show (Ledger.frames (L.step pID _) u).map _ = (if u = caller.tid then rest else n.handles u).map some
  rw [Ledger.frames, hS.stop_thread caller env ho u]
  by_cases hu : u = caller.tid
  · rw [if_pos hu, if_pos hu, hl, Option.map_some, Option.elim_some, ThreadLog.stop_frames, hrel]
    exact hrest
  · rw [if_neg hu, if_neg hu]
    exact hN.handles u

/-- A report keeps the frames; a log it drops has none. -/
theorem of_frames {L' : Ledger} (hN : Nests n L) (hnext : L'.next = L.next)
    (hframes : ∀ u, L'.frames u = L.frames u) : Nests n L' := by
  refine ⟨hN.next.trans hnext.symm, fun u => ?_⟩
  rw [hframes]
  exact hN.handles u

theorem step (hS : Sim pID s L) (hN : Nests n L) {op : Op}
    (hop : op.isMeasure ∨ op.isReport) (hn : n.step op = some n') : Nests n' (L.step pID op) := by
  cases op with
  | start caller szName nThresholdInUS env =>
    obtain rfl := Option.some.inj hn
    exact hN.start caller szName nThresholdInUS env
  | stop caller h env =>
    obtain ⟨rest, hh, rfl⟩ := Nesting.step_stop hn
    exact stop hS hN hh env
  | reportProcess caller p env =>
    obtain rfl := Option.some.inj hn
    refine hN.of_frames ?_ fun u => ?_
    · simp only [Ledger.step]
      split <;> rfl
    · simp only [Ledger.step]
      split
      · exact L.frames_reportThreads u
      · rfl
  | reportThread caller tID =>
    obtain rfl := Option.some.inj hn
    refine hN.of_frames rfl fun u => ?_
    simp only [Ledger.step, Ledger.frames, Ledger.setThread_thread]
    split
    · next hu =>
      rw [hu]
      cases L.thread tID <;> rfl
    · rfl
  | setThreshold caller h nThresholdInUS => exact absurd hop (by simp [Op.isMeasure, Op.isReport])
  | closeThread caller tID => exact absurd hop (by simp [Op.isMeasure, Op.isReport])
  | closeProcess caller p => exact absurd hop (by simp [Op.isMeasure, Op.isReport])

/-- A call of a well-nested trace can be booked, if a start has a name and a thread is reported once
    the process is registered. -/
theorem legal (hN : Nests n L) {op : Op} (hop : op.isMeasure ∨ op.isReport)
    (hn : n.step op = some n') (hname : op.named)
    (hreg : ∀ caller tID, op = .reportThread caller tID → L.registered = true) : Legal L op := by
  cases op with
  | start caller szName nThresholdInUS env => exact of_decide_eq_true (p := szName.bytes ≠ []) hname
  | stop caller h env =>
    obtain ⟨rest, hh, rfl⟩ := Nesting.step_stop hn
    obtain ⟨l, f, fs, hl, -, htrail, -⟩ := hN.stop_top hh
    exact ⟨_, _, l, hl, htrail⟩
  | reportProcess caller p env => trivial
  | reportThread caller tID => exact hreg caller tID rfl
  | setThreshold caller h nThresholdInUS => exact absurd hop (by simp [Op.isMeasure, Op.isReport])
  | closeThread caller tID => exact absurd hop (by simp [Op.isMeasure, Op.isReport])
  | closeProcess caller p => exact absurd hop (by simp [Op.isMeasure, Op.isReport])

/-- An open record has a frame. -/
theorem openCall (hN : Nests n L) (hh : h ∈ n.handles tID) : ∃ calls, OpenCall L tID h calls := by
  have hmem : some h ∈ (L.frames tID).map (·.handle) := by
    rw [hN.handles]
    exact List.mem_map_of_mem hh
  exact exists_openCall (List.mem_filterMap.mpr (List.mem_map.mp hmem))

theorem inScope (hS : Sim pID s L) (hN : Nests n L) {op : Op} (hop : n.Scoped op)
    (hname : op.named) (hn : n.step op = some n') : Legal L op ∧ Nests n' (L.step pID op) := by
  cases op with
  | start caller szName nThresholdInUS env =>
    exact ⟨hN.legal (Or.inl rfl) hn hname (by simp), hN.step hS (Or.inl rfl) hn⟩
  | stop caller h env =>
    exact ⟨hN.legal (Or.inl rfl) hn hname (by simp), hN.step hS (Or.inl rfl) hn⟩
  | setThreshold caller h nThresholdInUS =>
    obtain ⟨tID, hh⟩ := hop
    obtain ⟨calls, ho⟩ := hN.openCall hh
    obtain rfl := Option.some.inj hn
    exact ⟨hS.mem_opened ho, hN⟩
  | reportProcess caller p env => exact hop.elim
  | reportThread caller tID => exact hop.elim
  | closeThread caller tID => exact hop.elim
  | closeProcess caller p => exact hop.elim

end Nests

theorem Op.isClose_of_traced {op : Op} (h : op.isMeasure ∨ op.isReport) : op.isClose = false := by
  cases op <;> simp_all [Op.isMeasure, Op.isReport, Op.isClose]

theorem ReportsRegistered.left {ops : List Op} {op : Op} (h : ReportsRegistered (ops ++ [op])) :
    ReportsRegistered ops := by
  intro pre caller tID post hsplit
  exact h pre caller tID (post ++ [op]) (by rw [hsplit]; simp)

/-- The frames of a well-nested run are its open records. -/
theorem run_nests {pID : pid_t} {ops : List Op} {n : Nesting} {s : InProc}
    (hops : ∀ op ∈ ops, op.isMeasure ∨ op.isReport) (hn : Nesting.run ops = some n)
    (hs : InProc.run pID ops = .ok s) : Nests n (Ledger.run pID ops) := by
  induction ops using List.reverseRecOn generalizing n s with
  | nil =>
    obtain rfl := Option.some.inj hn
    exact .init
  | append_singleton ops op ih =>
    obtain ⟨n₀, hn₀, hstep⟩ := Nesting.run_concat.mp hn
    obtain ⟨s₀, hs₀, hs⟩ := foldlM_concat_ok.mp hs
    have hS₀ := InProc.run_sim hs₀
    have hN₀ := ih (fun op' hmem => hops op' (List.mem_append_left _ hmem)) hn₀ hs₀
    rw [Ledger.run_concat]
    exact hN₀.step hS₀ (hops op (by simp)) hstep

/-- **A well-nested run has an outcome**, if its calls have names and threads are reported only once
    the process is registered. -/
theorem run_nested {pID : pid_t} {ops : List Op} {n : Nesting}
    (hops : ∀ op ∈ ops, op.isMeasure ∨ op.isReport) (hnames : ∀ op ∈ ops, op.named)
    (hreg : ReportsRegistered ops) (hn : Nesting.run ops = some n) :
    ∃ s, InProc.run pID ops = .ok s := by
  induction ops using List.reverseRecOn generalizing n with
  | nil => exact ⟨_, rfl⟩
  | append_singleton ops op ih =>
    obtain ⟨n₀, hn₀, hstep⟩ := Nesting.run_concat.mp hn
    have hops' : ∀ op ∈ ops, op.isMeasure ∨ op.isReport :=
      fun op' hmem => hops op' (List.mem_append_left _ hmem)
    obtain ⟨s₀, hs₀⟩ := ih hops' (fun op' hmem => hnames op' (List.mem_append_left _ hmem))
      hreg.left hn₀
    have hS₀ := InProc.run_sim hs₀
    have hlegal := (run_nests hops' hn₀ hs₀).legal (hops op (by simp)) hstep
      (hnames op (by simp)) (by
        rintro caller tID rfl
        rw [Ledger.registered_eq fun op' hmem => Op.isClose_of_traced (hops' op' hmem),
          List.any_eq_true]
        exact hreg ops caller tID [] rfl)
    obtain ⟨s, hs, -⟩ := hS₀.step_ok hlegal
    exact ⟨s, foldlM_concat_ok.mpr ⟨s₀, hs₀, hs⟩⟩

/-! ## What was left since the last report -/

/-- **The rule for the logs of runs whose stops pop**: a stop leaves the innermost call of the
    thread that makes it, and a start or a stop is of no other thread. -/
theorem run_threads {P : List Op → pthread_t → ThreadLog → Prop} {Q : List Op → Prop} {pID : pid_t}
    (hleft : ∀ ops op, Q (ops ++ [op]) → Q ops)
    (hrun : ∀ ops, Q ops → ∃ s, InProc.run pID ops = .ok s)
    (htop : ∀ ops caller h env, Q (ops ++ [Op.stop caller h env]) → ∃ l f fs,
      (Ledger.run pID ops).thread caller.tid = some l ∧ l.frames = f :: fs ∧
        Frames.trail h l.frames = some (Frames.items l.frames) ∧ Frames.release h l.frames = fs)
    (hstart : ∀ ops caller szName nThr env h l,
      (P ops caller.tid l ∨ ∃ n, l = .init caller.tid n) →
        P (ops ++ [Op.start caller szName nThr env]) caller.tid
          (l.enter szName.bytes h env.timeStamp))
    (hstop : ∀ ops caller h env (l : ThreadLog) f fs, l.frames = f :: fs →
      Frames.trail h l.frames = some (Frames.items l.frames) → Frames.release h l.frames = fs →
        P ops caller.tid l →
          P (ops ++ [Op.stop caller h env]) caller.tid (l.stop h env.timeStamp))
    (hreport : ∀ ops op tID l, op.isReport → P ops tID l → P (ops ++ [op]) tID l.report)
    (hother : ∀ ops op tID l, (∀ ts, op.reading ≠ some (tID, ts)) → P ops tID l →
      P (ops ++ [op]) tID l) {ops : List Op} {tID : pthread_t} {l : ThreadLog} (hQ : Q ops)
    (hl : (Ledger.run pID ops).thread tID = some l) : P ops tID l := by
  induction ops using List.reverseRecOn generalizing tID l with
  | nil => exact absurd hl (by simp [Ledger.run, Ledger.init])
  | append_singleton ops op ih =>
    have ih' : ∀ {tID l}, (Ledger.run pID ops).thread tID = some l → P ops tID l :=
      fun hl => ih (hleft ops op hQ) hl
    rw [Ledger.run_concat] at hl
    rcases Ledger.step_thread pID tID hl with
      ⟨caller, szName, nThr, env, rfl, rfl, rfl⟩ | ⟨l₀, hl₀, h⟩
    · apply hstart
      cases hth : (Ledger.run pID ops).thread caller.tid with
      | none => exact Or.inr ⟨_, rfl⟩
      | some l₀ => exact Or.inl (ih' hth)
    · cases op with
      | start caller szName nThr env =>
        -- a start of the thread itself enters, so this one is of another
        rcases h with rfl | ⟨hop, -⟩ | ⟨_, _, _, hop, -⟩
        · apply hother _ _ _ _ _ (ih' hl₀)
          intro ts hreading
          obtain ⟨rfl, -⟩ := Prod.mk.inj (Option.some.inj hreading)
          have hentered := Option.some.inj (hl.symm.trans (if_pos rfl))
          have hlength := congrArg (·.events.length) hentered
          simp [ThreadLog.enter, hl₀] at hlength
        · exact absurd hop (by simp [Op.isReport])
        · exact absurd hop (by simp)
      | stop caller h₀ env =>
        -- the handle is the top of its thread's stack, and has a frame in that log only
        obtain ⟨l₁, f, fs, hl₁, hfs, ht, hrel⟩ := htop ops caller h₀ env hQ
        obtain ⟨s₀, hs₀⟩ := hrun ops (hleft ops _ hQ)
        have hthread := (InProc.run_sim hs₀).stop_thread caller env ⟨l₁, hl₁, ht⟩ tID
        rw [hl] at hthread
        by_cases htid : tID = caller.tid
        · rw [if_pos htid, hl₁] at hthread
          rw [Option.some.inj hthread, htid]
          exact hstop _ _ _ _ l₁ f fs hfs ht hrel (ih' hl₁)
        · rw [if_neg htid] at hthread
          rw [Option.some.inj (hthread.trans hl₀)]
          apply hother _ _ _ _ _ (ih' hl₀)
          intro ts hreading
          exact htid (Prod.mk.inj (Option.some.inj hreading)).1.symm
      | _ =>
        rcases h with rfl | ⟨hop, rfl⟩ | ⟨_, _, _, hop, -⟩
        · exact hother _ _ _ _ (by simp [Op.reading]) (ih' hl₀)
        · exact hreport _ _ _ _ hop (ih' hl₀)
        · exact absurd hop (by simp)

/-- … for well-nested runs, with the calls made so far. -/
theorem run_nested_threads {P : List Op → pthread_t → ThreadLog → Prop}
    (hstart : ∀ ops caller szName nThr env h l,
      (P ops caller.tid l ∨ ∃ n, l = .init caller.tid n) →
        P (ops ++ [Op.start caller szName nThr env]) caller.tid
          (l.enter szName.bytes h env.timeStamp))
    (hstop : ∀ ops caller h env (l : ThreadLog) f fs, l.frames = f :: fs →
      Frames.trail h l.frames = some (Frames.items l.frames) → Frames.release h l.frames = fs →
        P ops caller.tid l →
          P (ops ++ [Op.stop caller h env]) caller.tid (l.stop h env.timeStamp))
    (hreport : ∀ ops op tID l, op.isReport → P ops tID l → P (ops ++ [op]) tID l.report)
    (hother : ∀ ops op tID l, (∀ ts, op.reading ≠ some (tID, ts)) → P ops tID l →
      P (ops ++ [op]) tID l) {pID : pid_t} {ops : List Op} {n : Nesting} {s : InProc}
    {tID : pthread_t} {l : ThreadLog} (hops : ∀ op ∈ ops, op.isMeasure ∨ op.isReport)
    (hn : Nesting.run ops = some n) (hs : InProc.run pID ops = .ok s)
    (hl : (Ledger.run pID ops).thread tID = some l) : P ops tID l := by
  refine run_threads (Q := fun ops => (∀ op ∈ ops, op.isMeasure ∨ op.isReport) ∧
    WellNested ops ∧ ∃ s, InProc.run pID ops = .ok s) ?_ (fun _ hQ => hQ.2.2) ?_ hstart hstop
    hreport hother ⟨hops, ⟨n, hn⟩, s, hs⟩ hl
  · rintro ops op ⟨hops, ⟨n, hn⟩, s, hs⟩
    obtain ⟨n₀, hn₀, -⟩ := Nesting.run_concat.mp hn
    obtain ⟨s₀, hs₀, -⟩ := foldlM_concat_ok.mp hs
    exact ⟨fun op' hmem => hops op' (List.mem_append_left _ hmem), ⟨n₀, hn₀⟩, s₀, hs₀⟩
  · rintro ops caller h env ⟨hops, ⟨n, hn⟩, s, hs⟩
    obtain ⟨n₀, hn₀, hstep⟩ := Nesting.run_concat.mp hn
    obtain ⟨s₀, hs₀, -⟩ := foldlM_concat_ok.mp hs
    have hN₀ := run_nests (fun op' hmem => hops op' (List.mem_append_left _ hmem)) hn₀ hs₀
    obtain ⟨rest, hh, -⟩ := Nesting.step_stop hstep
    obtain ⟨l, f, fs, hl, hfs, ht, hrel, -⟩ := hN₀.stop_top hh
    exact ⟨l, f, fs, hl, hfs, ht, hrel⟩

/-- … and without the calls. -/
theorem run_nested_logs {P : ThreadLog → Prop} (hinit : ∀ tID n, P (.init tID n))
    (henter : ∀ l name h ts, P l → P (l.enter name h ts))
    (hstop : ∀ (l : ThreadLog) f fs h ts, l.frames = f :: fs →
      Frames.trail h l.frames = some (Frames.items l.frames) → Frames.release h l.frames = fs →
        P l → P (l.stop h ts))
    (hreport : ∀ l, P l → P l.report) {pID : pid_t} {ops : List Op} {n : Nesting} {s : InProc}
    {tID : pthread_t} {l : ThreadLog} (hops : ∀ op ∈ ops, op.isMeasure ∨ op.isReport)
    (hn : Nesting.run ops = some n) (hs : InProc.run pID ops = .ok s)
    (hl : (Ledger.run pID ops).thread tID = some l) : P l := by
  refine run_nested_threads (P := fun _ _ l => P l) ?_ ?_ ?_ ?_ hops hn hs hl
  · rintro ops caller szName nThr env h l (hl | ⟨n, rfl⟩)
    · exact henter _ _ _ _ hl
    · exact henter _ _ _ _ (hinit _ _)
  · exact fun _ _ _ _ l f fs hfs ht hrel hl => hstop l f fs _ _ hfs ht hrel hl
  · exact fun _ _ _ l _ hl => hreport l hl
  · exact fun _ _ _ _ _ hl => hl

section Left

variable {l : ThreadLog} {f : Frame Started} {fs : List (Frame Started)} {h : Handle} {ts : UInt64}

theorem ThreadLog.length_active_stop (ts : UInt64) (hfs : l.frames = f :: fs)
    (hrel : Frames.release h l.frames = fs) :
    (l.stop h ts).active.length + 1 = l.active.length := by
  unfold ThreadLog.active pathOf Frames.items
  rw [stop_frames, hrel, hfs]
  simp

/-- What is open and what was left since the last report are together what was open at the report
    and what was entered since. -/
def ThreadLog.Balanced (l : ThreadLog) : Prop :=
  l.active.length + leaves (sinceReport l.events) =
    (openAtReport l.events).length + entries (sinceReport l.events)

theorem ThreadLog.Balanced.enter {name : Name} (hl : l.Balanced) : (l.enter name h ts).Balanced := by
  show l.active.length + 1 + leaves (sinceReport l.events) =
    (openAtReport l.events).length + (entries (sinceReport l.events) + 1)
  unfold Balanced at hl
  omega

/-- Leaving the innermost call: one less is open, one more was left. -/
theorem ThreadLog.Balanced.stop (hl : l.Balanced) (hfs : l.frames = f :: fs)
    (ht : Frames.trail h l.frames = some (Frames.items l.frames))
    (hrel : Frames.release h l.frames = fs) : (l.stop h ts).Balanced := by
  have hactive := ThreadLog.length_active_stop ts hfs hrel
  unfold Balanced at hl ⊢
  rw [stop_events ht]
  show _ + (leaves (sinceReport l.events) + 1) =
    (openAtReport l.events).length + entries (sinceReport l.events)
  omega

/-- As long as nothing is entered, the calls left since the report get shorter and shorter paths:
    each path is left at most once, and it is longer than what is still open. -/
def ThreadLog.LeftOnce (l : ThreadLog) : Prop :=
  entries (sinceReport l.events) = 0 → ∀ π, (elapsedAt π (sinceReport l.events)).length ≤
    if l.active.length < π.length then 1 else 0

theorem ThreadLog.LeftOnce.stop (hl : l.LeftOnce) (hfs : l.frames = f :: fs)
    (ht : Frames.trail h l.frames = some (Frames.items l.frames))
    (hrel : Frames.release h l.frames = fs) : (l.stop h ts).LeftOnce := by
  have hactive := ThreadLog.length_active_stop ts hfs hrel
  intro hentered π
  rw [stop_events ht] at hentered ⊢
  have hle := hl hentered π
  show (if pathOf (Frames.items l.frames) = π then _ :: elapsedAt π (sinceReport l.events)
    else elapsedAt π (sinceReport l.events)).length ≤ _
  split
  · next hπ =>
    have hlen : π.length = l.active.length := by rw [← hπ]; rfl
    rw [if_neg (by omega)] at hle
    rw [if_pos (by omega), List.length_cons]
    omega
  · split at hle
    · rw [if_pos (by omega)]
      exact hle
    · exact hle.trans (Nat.zero_le _)

end Left

theorem run_balanced {pID : pid_t} {ops : List Op} {n : Nesting} {s : InProc} {tID : pthread_t}
    {l : ThreadLog} (hops : ∀ op ∈ ops, op.isMeasure ∨ op.isReport)
    (hn : Nesting.run ops = some n) (hs : InProc.run pID ops = .ok s)
    (hl : (Ledger.run pID ops).thread tID = some l) : l.Balanced := by
  refine run_nested_logs ?_ ?_ ?_ ?_ hops hn hs hl
  · exact fun _ _ => rfl
  · exact fun _ _ _ _ hl => hl.enter
  · exact fun _ _ _ _ _ hfs ht hrel hl => hl.stop hfs ht hrel
  · exact fun _ _ => rfl

theorem run_leftOnce {pID : pid_t} {ops : List Op} {n : Nesting} {s : InProc} {tID : pthread_t}
    {l : ThreadLog} (hops : ∀ op ∈ ops, op.isMeasure ∨ op.isReport)
    (hn : Nesting.run ops = some n) (hs : InProc.run pID ops = .ok s)
    (hl : (Ledger.run pID ops).thread tID = some l) : l.LeftOnce := by
  refine run_nested_logs ?_ ?_ ?_ ?_ hops hn hs hl
  · exact fun _ _ _ _ => Nat.zero_le _
  · exact fun l _ _ _ _ hentered => absurd hentered (Nat.succ_ne_zero _)
  · exact fun _ _ _ _ _ hfs ht hrel hl => hl.stop hfs ht hrel
  · exact fun _ _ _ _ => Nat.zero_le _

end RdkPerf

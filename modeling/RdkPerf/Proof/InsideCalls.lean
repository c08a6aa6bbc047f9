import RdkPerf.Lib.Marks
import RdkPerf.Proof.Innermost
import RdkPerf.Proof.Times

/-!
# What happened inside an open call

The log of a thread, its reports left out, is a list of marks. In a well-nested run they are
nested, and with a clock that does not go back each call that was left since an open call was
entered took no longer than that one has run.
-/

namespace RdkPerf

open Lib

def Event.mark : Event → Option (Mark Name UInt64)
  | .enter π => some (.enter π)
  | .leave π elapsed => some (.leave π elapsed)
  | .report _ => none

namespace ThreadLog

variable {l : ThreadLog} {now ts : UInt64} {name : Name} {h : Handle} {π : Path}
  {f : Frame Started} {fs : List (Frame Started)}

def marks (l : ThreadLog) : List (Mark Name UInt64) := l.events.filterMap Event.mark

theorem marks_enter : (l.enter name h ts).marks = .enter (name :: l.active) :: l.marks := rfl

theorem marks_stop (ht : Frames.trail h l.frames = some (Frames.items l.frames)) :
    (l.stop h ts).marks = .leave l.active (ts - startOf (Frames.items l.frames)) :: l.marks := by
  rw [marks, stop_events ht]
  rfl

theorem enter_mem_marks : .enter π ∈ l.marks ↔ .enter π ∈ l.events := by
  rw [marks, List.mem_filterMap]
  constructor
  · rintro ⟨e, he, hmark⟩
    cases e with
    | enter σ => exact (Mark.enter.inj (Option.some.inj hmark)) ▸ he
    | leave σ d => exact absurd hmark (by simp [Event.mark])
    | report σ => exact absurd hmark (by simp [Event.mark])
  · exact fun he => ⟨.enter π, he, rfl⟩

/-- A node shows the last call at its path, and nothing as long as there is none. -/
theorem nLastDelta_statsAt (hπ : π ≠ []) (es : List Event) :
    (statsAt π es).nLastDelta = (Marks.last π (es.filterMap Event.mark)).getD 0 := by
  induction es with
  | nil =>
    rw [statsAt, if_neg hπ]
    rfl
  | cons e es ih =>
    cases e with
    | enter σ => exact ih
    | report σ => exact ih
    | leave σ d =>
      show (if σ = π then _ else _ : TimingStats).nLastDelta =
        (if σ = π then some d else Marks.last π _).getD 0
      split
      · rfl
      · exact ih

/-- The marks are nested, and what was left since an open call was entered took no longer than
    from its start until now. -/
structure InTime (l : ThreadLog) (now : UInt64) : Prop where
  nested : Marks.Nested l.marks
  opened : Marks.openAfter l.marks = l.active
  begun : ∀ call ∈ Frames.items l.frames, call.startTime ≤ now
  ordered : (Frames.items l.frames).Pairwise fun inner outer => outer.startTime ≤ inner.startTime
  inside : ∀ call calls, call :: calls <:+ Frames.items l.frames → ∀ σ d,
    .leave σ d ∈ Marks.since (pathOf (call :: calls)) l.marks →
      d.toNat + call.startTime.toNat ≤ now.toNat

namespace InTime

theorem init (tID : pthread_t) (n : Name) : (ThreadLog.init tID n).InTime now where
  nested := trivial
  opened := rfl
  begun _ h := absurd h (List.not_mem_nil)
  ordered := List.Pairwise.nil
  inside _ _ h := absurd (List.suffix_nil.mp h) (by simp)

theorem later (hl : l.InTime now) (hnow : now ≤ ts) : l.InTime ts where
  nested := hl.nested
  opened := hl.opened
  begun call hmem := UInt64.le_trans (hl.begun call hmem) hnow
  ordered := hl.ordered
  inside call calls hs σ d hmem :=
    Nat.le_trans (hl.inside call calls hs σ d hmem) (UInt64.le_iff_toNat_le.mp hnow)

theorem enter (hl : l.InTime ts) : (l.enter name h ts).InTime ts where
  nested := ⟨by simp, hl.opened.symm, hl.nested⟩
  opened := rfl
  begun call hmem := by
    rcases List.mem_cons.mp hmem with rfl | hmem
    · exact UInt64.le_refl _
    · exact hl.begun call hmem
  ordered := List.pairwise_cons.mpr ⟨hl.begun, hl.ordered⟩
  inside call calls hs σ d hmem := by
    rw [marks_enter] at hmem
    rcases List.suffix_cons_iff.mp hs with heq | hs
    · -- nothing was left since now
      have hpath : pathOf (call :: calls) = name :: l.active := by
        rw [heq]
        rfl
      rw [hpath, Marks.since_enter] at hmem
      exact absurd hmem (List.not_mem_nil)
    · have hlonger : Mark.enter (name :: l.active) ≠
          (.enter (pathOf (call :: calls)) : Mark Name UInt64) := by
        intro heq
        have hlen := congrArg List.length (Mark.enter.inj heq)
        have hle := (hs.map (·.name)).length_le
        rw [List.length_cons] at hlen
        exact absurd (Nat.le_trans (Nat.le_of_eq hlen) hle) (Nat.not_succ_le_self _)
      rw [Marks.since_cons_of_ne hlonger] at hmem
      exact hl.inside call calls hs σ d ((List.mem_cons.mp hmem).resolve_left (by simp))

/-- Leaving the innermost call. -/
theorem stop (hl : l.InTime ts) (hfs : l.frames = f :: fs)
    (ht : Frames.trail h l.frames = some (Frames.items l.frames))
    (hrel : Frames.release h l.frames = fs) : (l.stop h ts).InTime ts := by
  have hitems : Frames.items l.frames = f.item :: Frames.items fs := by
    rw [hfs]
    rfl
  have hstart := hl.begun f.item (hitems ▸ List.mem_cons_self)
  have hbefore := UInt64.le_iff_toNat_le.mp hstart
  have htime : (ts - f.item.startTime).toNat = ts.toNat - f.item.startTime.toNat :=
    UInt64.toNat_sub_of_le _ _ hstart
  have hmarks : (l.stop h ts).marks = .leave l.active (ts - f.item.startTime) :: l.marks := by
    rw [marks_stop ht, hitems]
    rfl
  have hframes : (l.stop h ts).frames = fs := by rw [stop_frames, hrel]
  have hactive : l.active = pathOf (f.item :: Frames.items fs) := congrArg pathOf hitems
  have hordered := hl.ordered
  rw [hitems, List.pairwise_cons] at hordered
  constructor
  case nested =>
    rw [hmarks]
    refine ⟨by rw [hactive]; simp [pathOf], hl.opened.symm, fun σ d hmem => ?_, hl.nested⟩
    have hin := hl.inside f.item (Frames.items fs) (hitems ▸ List.suffix_rfl) σ d (hactive ▸ hmem)
    rw [UInt64.le_iff_toNat_le, htime]
    omega
  case opened =>
    rw [hmarks]
    show l.active.tail = pathOf (Frames.items (l.stop h ts).frames)
    rw [hframes, hactive]
    rfl
  case begun =>
    rw [hframes]
    exact fun call hmem => hl.begun call (hitems ▸ List.mem_cons_of_mem _ hmem)
  case ordered =>
    rw [hframes]
    exact hordered.2
  case inside =>
    rw [hframes, hmarks]
    intro call calls hs σ d hmem
    rw [Marks.since_cons_of_ne (by simp)] at hmem
    rcases List.mem_cons.mp hmem with heq | hmem
    · -- the call that is left began after every other that is open
      obtain ⟨-, rfl⟩ := Mark.leave.inj heq
      have houter := UInt64.le_iff_toNat_le.mp
        (hordered.1 call (hs.subset List.mem_cons_self))
      rw [htime]
      omega
    · exact hl.inside call calls (hitems ▸ hs.trans (List.suffix_cons _ _)) σ d hmem

end InTime
end ThreadLog

section Run

variable {pID : pid_t} {ops : List Op} {op : Op} {s : InProc} {tID : pthread_t} {l : ThreadLog}
  {ts : UInt64}

theorem ClocksAdvance.last_le (h : ClocksAdvance (ops ++ [op])) (hr : op.reading = some (tID, ts)) :
    lastReading tID ops ≤ ts := by
  obtain ⟨-, hle, -⟩ := h.own hr
  unfold lastReading
  rcases List.eq_nil_or_concat' (readings tID ops) with hnil | ⟨init, r, hr'⟩
  · rw [hnil]
    exact UInt64.le_iff_toNat_le.mpr (Nat.zero_le _)
  · rw [hr'] at hle ⊢
    rw [List.getLastD_concat]
    exact hle r (by simp)

/-- **Every log of a well-nested run is in time**, whatever else was called. -/
theorem run_inTime (hn : WellNested ops) (hclocks : ClocksAdvance ops)
    (hs : InProc.run pID ops = .ok s) (hl : (Ledger.run pID ops).thread tID = some l) :
    l.InTime (lastReading tID ops) := by
  refine run_open_threads (P := fun ops tID l => ClocksAdvance ops → l.InTime (lastReading tID ops))
    ?_ ?_ ?_ ?_ hn hs hl hclocks
  · intro ops caller szName nThr env h l hold hclocks
    have hr : (Op.start caller szName nThr env).reading = some (caller.tid, env.timeStamp) := rfl
    rw [(hclocks.own hr).1]
    apply ThreadLog.InTime.enter
    rcases hold with hold | ⟨n, rfl⟩
    · exact (hold hclocks.left).later (hclocks.last_le hr)
    · exact .init caller.tid n
  · intro ops caller h env l f fs hfs ht hrel hold hclocks
    have hr : (Op.stop caller h env).reading = some (caller.tid, env.timeStamp) := rfl
    rw [(hclocks.own hr).1]
    exact ((hold hclocks.left).later (hclocks.last_le hr)).stop hfs ht hrel
  · intro ops op tID l hop hold hclocks
    have hother : ∀ ts, op.reading ≠ some (tID, ts) := by
      intro ts
      cases op <;> simp_all [Op.isReport, Op.reading]
    rw [lastReading, readings_other hother]
    have hl := hold hclocks.left
    exact ⟨hl.nested, hl.opened, hl.begun, hl.ordered, hl.inside⟩
  · intro ops op tID l hother hold hclocks
    rw [lastReading, readings_other hother]
    exact hold hclocks.left

end Run
end RdkPerf

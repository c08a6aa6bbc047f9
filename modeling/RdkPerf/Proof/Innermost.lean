import RdkPerf.Proof.Nested

/-!
# Well-nested runs with removals in them

A call that removes a tree takes the frames of its thread away, and leaves the open records behind:
a stop of one of these has no outcome. So in a run that has one, whatever else is called, the
frames of a thread are the innermost of its open records (`Tops`), and a nested stop still closes
the top of the stack.
-/

namespace RdkPerf

open Lib

/-- The frames of a thread belong to its innermost open records, and no two threads have a record
    in common. -/
structure Tops (n : Nesting) (L : Ledger) : Prop where
  next : n.next = L.next
  fresh : ∀ {tID h}, h ∈ n.handles tID → h < n.next
  apart : ∀ {tID tID' h}, h ∈ n.handles tID → h ∈ n.handles tID' → tID = tID'
  frames : ∀ tID, (L.frames tID).map (·.handle) <+: (n.handles tID).map some

namespace Tops

variable {pID : pid_t} {s s' : InProc} {L L' : Ledger} {n n' : Nesting} {tID tID' : pthread_t}
  {h : Handle} {calls : List Started} {op : Op}

theorem init : Tops .init .init where
  next := rfl
  fresh h := absurd h (List.not_mem_nil)
  apart h := absurd h (List.not_mem_nil)
  frames _ := List.prefix_rfl

/-- A nested stop that has an outcome pops. -/
theorem stop_top (hT : Tops n L) {rest : List Handle} (hh : n.handles tID = h :: rest)
    (ho : OpenCall L tID' h calls) : ∃ l f fs, L.thread tID = some l ∧ l.frames = f :: fs ∧
      Frames.trail h l.frames = some (Frames.items l.frames) ∧ Frames.release h l.frames = fs ∧
      fs.map (·.handle) <+: rest.map some := by
  -- the frame of `h` is among those of this thread
  have hmem : some h ∈ (L.frames tID').map (·.handle) := by
    obtain ⟨f, hf, hfh⟩ := List.mem_filterMap.mp ho.mem_handles
    exact List.mem_map.mpr ⟨f, hf, hfh⟩
  have hown : h ∈ n.handles tID' := by
    obtain ⟨h', hh', heq⟩ := List.mem_map.mp ((hT.frames tID').subset hmem)
    exact (Option.some.inj heq) ▸ hh'
  obtain rfl : tID = tID' := hT.apart (hh ▸ List.mem_cons_self) hown
  have hpre := hT.frames tID
  obtain ⟨l, hl, -⟩ := ho
  rw [Ledger.frames_of_some hl] at hpre hmem
  rw [hh] at hpre
  cases hfs : l.frames with
  | nil =>
    rw [hfs] at hmem
    exact absurd hmem (List.not_mem_nil)
  | cons f fs =>
    rw [hfs, List.map_cons, List.map_cons, List.cons_prefix_cons] at hpre
    exact ⟨l, f, fs, hl, hfs, by rw [hfs, Frames.trail, if_pos hpre.1],
      by rw [hfs, Frames.release, if_pos hpre.1], hpre.2⟩

/-- A call that makes no record and ends none. -/
theorem keep (hT : Tops n L) (hnext : L'.next = L.next)
    (hframes : ∀ tID, L'.frames tID = L.frames tID ∨ L'.frames tID = []) : Tops n L' := by
  refine ⟨hT.next.trans hnext.symm, hT.fresh, hT.apart, fun tID => ?_⟩
  rcases hframes tID with h | h
  · rw [h]
    exact hT.frames tID
  · rw [h]
    exact List.nil_prefix

theorem start (hT : Tops n L) (caller : Caller) (szName : CString) (nThresholdInUS : Option UInt32)
    (env : Env) : Tops { n.set caller.tid (n.next :: n.handles caller.tid) with next := n.next + 1 }
      (L.step pID (.start caller szName nThresholdInUS env)) := by
  -- the record it makes is the newest
  have hcases : ∀ {u h}, h ∈ (if u = caller.tid then n.next :: n.handles caller.tid
      else n.handles u) → (u = caller.tid ∧ h = n.next) ∨ h ∈ n.handles u := by
    intro u h hh
    split at hh
    · next hu => exact (List.mem_cons.mp hh).imp (fun h => ⟨hu, h⟩) fun h => hu ▸ h
    · exact Or.inr hh
  refine ⟨congrArg (· + 1) hT.next, fun {u h} hh => ?_, fun {u u' h} hh hh' => ?_, fun u => ?_⟩
  · rcases hcases hh with ⟨-, rfl⟩ | hh
    · exact Nat.lt_succ_self _
    · exact Nat.lt_succ_of_lt (hT.fresh hh)
  · rcases hcases hh with ⟨rfl, rfl⟩ | hh
    · rcases hcases hh' with ⟨rfl, -⟩ | hh'
      · rfl
      · exact absurd (hT.fresh hh') (Nat.lt_irrefl _)
    · rcases hcases hh' with ⟨-, rfl⟩ | hh'
      · exact absurd (hT.fresh hh) (Nat.lt_irrefl _)
      · exact hT.apart hh hh'
  · show _ <+: (if u = caller.tid then n.next :: n.handles caller.tid else n.handles u).map some
    rw [Ledger.frames_start]
    by_cases hu : u = caller.tid
    · rw [if_pos hu, if_pos hu, hT.next]
      exact List.cons_prefix_cons.mpr ⟨rfl, hT.frames caller.tid⟩
    · rw [if_neg hu, if_neg hu]
      exact hT.frames u

theorem stop (hS : Sim pID s L) (hT : Tops n L) {caller : Caller} {rest : List Handle}
    (hh : n.handles caller.tid = h :: rest) (ho : OpenCall L tID' h calls) (env : Env) :
    Tops (n.set caller.tid rest) (L.step pID (.stop caller h env)) := by
  obtain ⟨l, f, fs, hl, hfs, htrail, hrel, hrest⟩ := hT.stop_top hh ho
  have hsub : ∀ {u h'}, h' ∈ (n.set caller.tid rest).handles u → h' ∈ n.handles u := by
    intro u h' hmem
    simp only [Nesting.set] at hmem
    split at hmem
    · next hu => exact hu ▸ hh ▸ List.mem_cons_of_mem _ hmem
    · exact hmem
  refine ⟨hT.next, fun hmem => hT.fresh (hsub hmem),
    fun hmem hmem' => hT.apart (hsub hmem) (hsub hmem'), fun u => ?_⟩
  show (Ledger.frames (L.step pID _) u).map _ <+:
    (if u = caller.tid then rest else n.handles u).map some
  rw [Ledger.frames, hS.stop_thread caller env ⟨l, hl, htrail⟩ u]
  by_cases hu : u = caller.tid
  · rw [if_pos hu, if_pos hu, hl, Option.map_some, Option.elim_some, ThreadLog.stop_frames, hrel]
    exact hrest
  · rw [if_neg hu, if_neg hu]
    exact hT.frames u

/-- **Every call that has an outcome keeps it.** -/
theorem step (hS : Sim pID s L) (hT : Tops n L) (hop : Legal L op) (hn : n.step op = some n') :
    Tops n' (L.step pID op) := by
  cases op with
  | start caller szName nThresholdInUS env =>
    obtain rfl := Option.some.inj hn
    exact hT.start caller szName nThresholdInUS env
  | stop caller h env =>
    obtain ⟨rest, hh, rfl⟩ := Nesting.step_stop hn
    obtain ⟨tID', calls, ho⟩ := hop
    exact stop hS hT hh ho env
  | setThreshold caller h nThresholdInUS =>
    obtain rfl := Option.some.inj hn
    exact hT
  | reportProcess caller p env =>
    obtain rfl := Option.some.inj hn
    simp only [Ledger.step]
    split
    · exact hT.keep rfl fun u => Or.inl (L.frames_reportThreads u)
    · exact hT
  | reportThread caller u =>
    obtain rfl := Option.some.inj hn
    refine hT.keep rfl fun v => Or.inl ?_
    simp only [Ledger.step, Ledger.frames, Ledger.setThread_thread]
    split
    · next hv =>
      rw [hv]
      cases L.thread u <;> rfl
    · rfl
  | closeThread caller u =>
    obtain rfl := Option.some.inj hn
    refine hT.keep rfl fun v => ?_
    simp only [Ledger.step, Ledger.frames, Ledger.setThread_thread]
    split
    · exact Or.inr rfl
    · exact Or.inl rfl
  | closeProcess caller p =>
    obtain rfl := Option.some.inj hn
    simp only [Ledger.step]
    split
    · exact hT.keep rfl fun _ => Or.inr rfl
    · exact hT

end Tops

theorem run_tops {pID : pid_t} {ops : List Op} {n : Nesting} {s : InProc}
    (hn : Nesting.run ops = some n) (hs : InProc.run pID ops = .ok s) :
    Tops n (Ledger.run pID ops) := by
  induction ops using List.reverseRecOn generalizing n s with
  | nil =>
    obtain rfl := Option.some.inj hn
    exact .init
  | append_singleton ops op ih =>
    obtain ⟨n₀, hn₀, hstep⟩ := Nesting.run_concat.mp hn
    obtain ⟨s₀, hs₀, hs⟩ := foldlM_concat_ok.mp hs
    have hS₀ := InProc.run_sim hs₀
    rw [Ledger.run_concat]
    exact Tops.step hS₀ (ih hn₀ hs₀) (hS₀.step_legal hs) hstep

/-- **The rule for the logs of runs that have an outcome**, whatever is called in them. -/
theorem run_open_threads {P : List Op → pthread_t → ThreadLog → Prop}
    (hstart : ∀ ops caller szName nThr env h l,
      (P ops caller.tid l ∨ ∃ n, l = .init caller.tid n) →
        P (ops ++ [Op.start caller szName nThr env]) caller.tid
          (l.enter szName.bytes h env.timeStamp))
    (hstop : ∀ ops caller h env (l : ThreadLog) f fs, l.frames = f :: fs →
      Frames.trail h l.frames = some (Frames.items l.frames) → Frames.release h l.frames = fs →
        P ops caller.tid l →
          P (ops ++ [Op.stop caller h env]) caller.tid (l.stop h env.timeStamp))
    (hreport : ∀ ops op tID l, op.isReport → P ops tID l → P (ops ++ [op]) tID l.report)
    (hother : ∀ ops op tID l, (∀ ts, op.reading ≠ some (tID, ts)) → P ops tID l →
      P (ops ++ [op]) tID l) {pID : pid_t} {ops : List Op} {s : InProc} {tID : pthread_t}
    {l : ThreadLog} (hn : WellNested ops) (hs : InProc.run pID ops = .ok s)
    (hl : (Ledger.run pID ops).thread tID = some l) : P ops tID l := by
  refine run_threads (Q := fun ops => WellNested ops ∧ ∃ s, InProc.run pID ops = .ok s) ?_
    (fun _ hQ => hQ.2) ?_ hstart hstop hreport hother ⟨hn, s, hs⟩ hl
  · rintro ops op ⟨⟨n, hn⟩, s, hs⟩
    obtain ⟨n₀, hn₀, -⟩ := Nesting.run_concat.mp hn
    obtain ⟨s₀, hs₀, -⟩ := foldlM_concat_ok.mp hs
    exact ⟨⟨n₀, hn₀⟩, s₀, hs₀⟩
  · rintro ops caller h env ⟨⟨n, hn⟩, s, hs⟩
    obtain ⟨n₀, hn₀, hstep⟩ := Nesting.run_concat.mp hn
    obtain ⟨s₀, hs₀, hs⟩ := foldlM_concat_ok.mp hs
    obtain ⟨rest, hh, -⟩ := Nesting.step_stop hstep
    obtain ⟨tID', calls, ho⟩ := (InProc.run_sim hs₀).step_legal hs
    obtain ⟨l, f, fs, hl, hfs, ht, hrel, -⟩ := (run_tops hn₀ hs₀).stop_top hh ho
    exact ⟨l, f, fs, hl, hfs, ht, hrel⟩

end RdkPerf

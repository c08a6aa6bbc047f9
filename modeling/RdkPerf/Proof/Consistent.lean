import RdkPerf.Proof.Intervals
import RdkPerf.Proof.Times

/-!
# When the figures of a node are consistent

`gettimeofday` may go back, and an elapsed time is a difference of two readings in 64 bits: a call
during which the clock goes back by `b` takes `2 ^ 64 - b`. One such call does no harm by itself.
The minimum never exceeds the maximum, and while fewer than `2 ^ 64` calls are counted the total
never exceeds the count times the maximum; what can fail is that the maximum is at most the total.
It does not exactly when the longest call and the others together still fit in 64 bits
(`TimesFit`): after a step back by `b`, when the other calls took less than `b` in all.
-/

namespace RdkPerf

open Lib

/-- `nTotalMin ≤ nTotalMax ≤ nTotalTime ≤ nTotalCount * nTotalMax`, the product as a number. -/
structure Consistent (s : TimingStats) : Prop where
  min_le_max : s.nTotalMin ≤ s.nTotalMax
  max_le_time : s.nTotalMax ≤ s.nTotalTime
  time_le_count : s.nTotalTime.toNat ≤ s.nTotalCount.toNat * s.nTotalMax.toNat

/-- Every node below a root that has counted a call is consistent. -/
def StatsConsistent (pID : pid_t) (s : InProc) : Prop :=
  ∀ tID t tree r π node, s.mem.treePtr pID tID = some t → s.mem.trees.get t = some tree →
    tree.rootNode = some r → π ≠ [] → s.mem.nodeAt r π = some node →
      0 < node.stats.nTotalCount → Consistent node.stats

/-- The longest time and the rest of them, which may have wrapped, add up without wrapping. The
    second part says nothing as long as the count does not wrap. -/
def TimesFit (ds : List UInt64) : Prop :=
  let ns := ds.map UInt64.toNat
  let longest := ns.foldr max 0
  ds.length % 2 ^ 64 ≠ 0 → longest + (ns.sum - longest) % 2 ^ 64 < 2 ^ 64 ∧
    (ds.length < 2 ^ 64 ∨ ns.sum % 2 ^ 64 ≤ ds.length % 2 ^ 64 * longest)

instance (ds : List UInt64) : Decidable (TimesFit ds) := by
  unfold TimesFit
  infer_instance

section Numbers

variable {ns : List Nat} {a : Nat}

theorem foldr_max_le_sum (ns : List Nat) : ns.foldr max 0 ≤ ns.sum := by
  induction ns with
  | nil => exact Nat.le_refl _
  | cons n ns ih =>
    rw [List.foldr_cons, List.sum_cons]
    omega

theorem sum_le_length_mul (ns : List Nat) : ns.sum ≤ ns.length * ns.foldr max 0 := by
  rw [← smul_eq_mul]
  exact List.sum_le_card_nsmul ns _ fun n hn => le_foldr_max_of_mem hn

theorem foldr_min_le_foldr_max (hne : ns ≠ []) : ns.foldr min a ≤ ns.foldr max 0 := by
  obtain ⟨n, hn⟩ := List.exists_mem_of_ne_nil ns hne
  exact (foldr_min_le_of_mem hn).trans (le_foldr_max_of_mem hn)

/-- A wrapped sum is still at least one of its terms when that fits beside the rest. -/
theorem le_mod_iff {longest total : Nat} (hle : longest ≤ total) (hlt : longest < 2 ^ 64) :
    longest ≤ total % 2 ^ 64 ↔ longest + (total - longest) % 2 ^ 64 < 2 ^ 64 := by
  omega

end Numbers

/-! ## The figures of a path -/

section Figures

variable {π : Path} {es : List Event}

/-- The extremes of a path are those of its calls. -/
theorem statsAt_extremes (π : Path) (es : List Event) :
    (statsAt π es).nTotalMin.toNat =
        ((elapsedAt π es).map UInt64.toNat).foldr min INITIAL_MIN_VALUE.toNat ∧
      (statsAt π es).nTotalMax.toNat = ((elapsedAt π es).map UInt64.toNat).foldr max 0 := by
  induction es with
  | nil =>
    rw [statsAt]
    split <;> exact ⟨rfl, rfl⟩
  | cons e es ih =>
    cases e with
    | enter σ => exact ih
    | report active => exact ih
    | leave σ d =>
      rw [statsAt, elapsedAt]
      by_cases hσ : σ = π
      · rw [if_pos hσ, if_pos hσ, List.map_cons, List.foldr_cons, List.foldr_cons, ← ih.1, ← ih.2,
          min_comm, max_comm]
        exact ⟨toNat_ite_min _ _, toNat_ite_max _ _⟩
      · rw [if_neg hσ, if_neg hσ]
        exact ih

/-- **A path is consistent** when its times fit. -/
theorem consistent_statsAt_iff (hπ : π ≠ []) :
    (0 < (statsAt π es).nTotalCount → Consistent (statsAt π es)) ↔
      TimesFit (elapsedAt π es) := by
  obtain ⟨hcount, htime, -⟩ := statsAt_totals es hπ
  obtain ⟨hmin, hmax⟩ := statsAt_extremes π es
  have hcount := congrArg UInt64.toNat hcount
  have htime := congrArg UInt64.toNat htime
  rw [UInt64.toNat_ofNat'] at hcount
  rw [toNat_sum] at htime
  have hlength : ((elapsedAt π es).map UInt64.toNat).length = (elapsedAt π es).length :=
    List.length_map _
  unfold TimesFit
  generalize (elapsedAt π es).length = n at hcount hlength ⊢
  generalize (elapsedAt π es).map UInt64.toNat = ns at hmin hmax htime hlength ⊢
  have hlt : ns.foldr max 0 < 2 ^ 64 := hmax ▸ UInt64.toNat_lt _
  have hfit := le_mod_iff (foldr_max_le_sum ns) hlt
  have hsum := sum_le_length_mul ns
  rw [hlength] at hsum
  have hpos : 0 < (statsAt π es).nTotalCount ↔ n % 2 ^ 64 ≠ 0 := by
    rw [UInt64.lt_iff_toNat_lt, hcount]
    exact Nat.pos_iff_ne_zero
  rw [hpos]
  refine forall_congr' fun hn => ?_
  constructor
  · intro h
    have hmaxTime := UInt64.le_iff_toNat_le.mp h.max_le_time
    have htimeCount := h.time_le_count
    rw [hmax, htime] at hmaxTime
    rw [htime, hcount, hmax] at htimeCount
    exact ⟨hfit.mp hmaxTime, Or.inr htimeCount⟩
  · rintro ⟨hlongest, hwrapped⟩
    have hne : ns ≠ [] := by
      rintro rfl
      rw [← hlength] at hn
      exact hn rfl
    refine ⟨?_, ?_, ?_⟩
    · rw [UInt64.le_iff_toNat_le, hmin, hmax]
      exact foldr_min_le_foldr_max hne
    · rw [UInt64.le_iff_toNat_le, hmax, htime]
      exact hfit.mpr hlongest
    · rw [htime, hcount, hmax]
      rcases hwrapped with hfew | hmany
      · rw [Nat.mod_eq_of_lt hfew]
        exact (Nat.mod_le _ _).trans hsum
      · exact hmany

end Figures

/-! ## Runs -/

/-- **The figures of a run are consistent** exactly when the times of each path fit. -/
theorem stats_consistent_iff (pID : pid_t) (ops : List Op) (s : InProc)
    (hs : InProc.run pID ops = .ok s) :
    StatsConsistent pID s ↔ ∀ tID l π, (Ledger.run pID ops).thread tID = some l → π ≠ [] →
      TimesFit (elapsedAt π l.events) := by
  have hS := InProc.run_sim hs
  constructor
  · intro h tID l π hl hπ
    have hct : ((Ledger.run pID ops).world s.pID).tree pID tID = some l.callTree := by
      rw [hS.pID, Ledger.world_tree_self, hl]
      rfl
    obtain ⟨t, r, hA⟩ := hS.rep.at_of_tree hct
    obtain ⟨stack, htree, -⟩ := hA.tracks.tree
    rw [← consistent_statsAt_iff hπ]
    intro hcount
    -- a path that has counted a call has a node
    cases hwalk : walk (childOf s.mem) r π with
    | none =>
      have hnone := hA.tracks.absent hwalk
      rw [ThreadLog.callTree_node] at hnone
      have hleft : ∀ d, .leave π d ∉ l.events := by
        intro d hd
        rw [if_pos (Or.inr (l.left_entered hd))] at hnone
        exact absurd hnone (by simp)
      rw [statsAt_of_not_left hπ hleft] at hcount
      exact absurd hcount (show ¬ (0 : UInt64) < 0 by decide)
    | some p =>
      obtain ⟨node, hnode, -⟩ := hA.tracks.live hwalk
      rw [← hA.tracks.stats_eq hwalk hnode] at hcount ⊢
      refine h tID t _ r π node hA.ptr htree rfl hπ ?_ hcount
      rw [Mem.nodeAt, hwalk]
      exact hnode
  · intro h tID t tree r π node ht htree hroot hπ hnode hcount
    obtain ⟨r₀, ct, hA⟩ := hS.rep.present ht
    have hct := hA.spec
    rw [hS.pID, Ledger.world_tree_self] at hct
    obtain ⟨l, hl, rfl⟩ := Option.map_eq_some_iff.mp hct
    obtain ⟨stack, hstack, -⟩ := hA.tracks.tree
    obtain rfl := Option.some.inj (htree.symm.trans hstack)
    obtain rfl : r₀ = r := Option.some.inj hroot
    obtain ⟨p, hp, hnode⟩ := Option.bind_eq_some_iff.mp hnode
    rw [hA.tracks.stats_eq hp hnode] at hcount ⊢
    exact (consistent_statsAt_iff hπ).mpr (h tID l π hl hπ) hcount

/-- The clock goes back by five during the first call of `f`; the second takes two. -/
def steppedBack : List Op :=
  [.start threadA nameF none { timeStamp := 100 }, .stop threadA 0 { timeStamp := 95 },
    .start threadA nameF none { timeStamp := 95 }, .stop threadA 1 { timeStamp := 97 }]

/-- A third call, of ten microseconds. -/
def steppedFurther : List Op :=
  steppedBack ++ [.start threadA nameF none { timeStamp := 97 },
    .stop threadA 2 { timeStamp := 107 }]

theorem steppedBack_consistent : ∃ s, InProc.run 42 steppedBack = .ok s ∧ StatsConsistent 42 s := by
  obtain ⟨s, hs, -⟩ := ok_of_toOption_bind
    (show (InProc.run 42 steppedBack).toOption.bind (fun s => some s.pID) = some 42 by decide)
  refine ⟨s, hs, (stats_consistent_iff 42 steppedBack s hs).mpr ?_⟩
  intro tID l π hl hπ
  -- one thread has a log, and one path was left
  by_cases htid : tID = 1
  · subst htid
    obtain rfl := Option.some.inj hl
    by_cases hf : π = [nameF.bytes]
    · subst hf
      decide
    · have hnone : elapsedAt π [.leave [nameF.bytes] 2, .enter [nameF.bytes],
          .leave [nameF.bytes] 18446744073709551611, .enter [nameF.bytes]] = [] := by
        simp [elapsedAt, Ne.symm hf]
      show TimesFit (elapsedAt π [.leave [nameF.bytes] 2, .enter [nameF.bytes],
        .leave [nameF.bytes] 18446744073709551611, .enter [nameF.bytes]])
      rw [hnone]
      decide
  · have hnone : (Ledger.run 42 steppedBack).thread tID = none := by
      simp [Ledger.run, steppedBack, Ledger.step, Ledger.init, threadA, htid]
    rw [hnone] at hl
    exact absurd hl (by simp)

/-- With the third call the total wraps, and is less than the longest call. -/
theorem steppedFurther_inconsistent : ∃ s, InProc.run 42 steppedFurther = .ok s ∧
    ¬ StatsConsistent 42 s := by
  obtain ⟨s, hs, hread⟩ := ok_of_toOption_bind (show (InProc.run 42 steppedFurther).toOption.bind
    (fun s => (s.mem.treePtr 42 1).bind fun t => (s.mem.trees.get t).bind fun tree =>
      tree.rootNode.bind fun r => (s.mem.nodeAt r [nameF.bytes]).map fun node =>
        (node.stats.nTotalCount, node.stats.nTotalMax, node.stats.nTotalTime)) =
      some (3, 18446744073709551611, 7) by decide)
  obtain ⟨t, ht, hread⟩ := Option.bind_eq_some_iff.mp hread
  obtain ⟨tree, htree, hread⟩ := Option.bind_eq_some_iff.mp hread
  obtain ⟨r, hr, hread⟩ := Option.bind_eq_some_iff.mp hread
  obtain ⟨node, hnode, hread⟩ := Option.map_eq_some_iff.mp hread
  obtain ⟨hcount, hrest⟩ := Prod.mk.inj hread
  obtain ⟨hmax, htime⟩ := Prod.mk.inj hrest
  refine ⟨s, hs, fun h => ?_⟩
  have hle := (h 1 t tree r _ node ht htree hr (by simp) hnode (by rw [hcount]; decide)).max_le_time
  rw [hmax, htime] at hle
  exact absurd hle (by decide)

end RdkPerf

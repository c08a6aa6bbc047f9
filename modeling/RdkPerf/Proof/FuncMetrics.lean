import RdkPerf.Lib.Fold
import RdkPerf.Lib.Batches
import RdkPerf.Model.FuncMetrics

/-!
# The batches of the inline metrics

The index of a block counts the times it has stored, and never passes the copy of the depth, so it
stays inside the array whatever the depth is. What depends on the depth is the batch: it is full at
the copy, which is another number from `2 ^ 16` on, and zero at each multiple of it. The sum of a
batch is taken in 64 bits.
-/

namespace RdkPerf
namespace FuncMetrics

open Lib

variable {depth : Nat} {m : FuncMetrics depth} {batch : List UInt64}

/-- The array begins with the batch, and the index is behind it. -/
structure Collects (m : FuncMetrics depth) (batch : List UInt64) : Prop where
  x_nIdx : m.x_nIdx.toNat = batch.length
  length : batch.length ≤ depth % 2 ^ 16
  x_data : m.x_data.toList.take batch.length = batch

theorem Collects.init : Collects ({} : FuncMetrics depth) [] := ⟨rfl, Nat.zero_le _, rfl⟩

theorem toNat_x_depth (depth : Nat) : (UInt16.ofNat depth).toNat = depth % 2 ^ 16 :=
  UInt16.toNat_ofNat'

/-! ## One execution -/

/-- The loop adds the batch up from its end, and leaves the index at zero. -/
theorem sumDown_eq {x_data : Vector UInt64 depth} {x_nIdx : UInt16} (sum : UInt64)
    (hidx : x_nIdx.toNat = batch.length) (hdata : x_data.toList.take batch.length = batch) :
    ∃ total, sumDown x_data (batch.length + 1) x_nIdx sum = some (0, total) ∧
      total.toNat = (sum.toNat + (batch.map UInt64.toNat).sum) % 2 ^ 64 := by
  induction batch using List.reverseRecOn generalizing x_nIdx sum with
  | nil =>
    obtain rfl : x_nIdx = 0 := UInt16.toNat_inj.mp hidx
    exact ⟨sum, rfl, (Nat.mod_eq_of_lt sum.toNat_lt).symm⟩
  | append_singleton batch x ih =>
    rw [List.length_append, List.length_singleton] at hidx hdata ⊢
    have hone : (1 : UInt16) ≤ x_nIdx := by
      rw [UInt16.le_iff_toNat_le, hidx]
      exact Nat.succ_le_succ (Nat.zero_le _)
    have hpos : x_nIdx ≠ 0 := by
      rintro rfl
      exact absurd hidx (Nat.succ_ne_zero _).symm
    have hprev : (x_nIdx - 1).toNat = batch.length := by
      rw [UInt16.toNat_sub_of_le _ _ hone, hidx]
      rfl
    have hlast : x_data[batch.length]? = some x := by
      have hget := congrArg (·[batch.length]?) hdata
      simpa using hget
    have hrest : x_data.toList.take batch.length = batch := by
      have htake := congrArg (List.take batch.length) hdata
      simpa [List.take_take] using htake
    obtain ⟨total, hsum, htotal⟩ := ih (sum + x) hprev hrest
    refine ⟨total, ?_, ?_⟩
    · rw [sumDown, if_pos hpos]
      simp only [hprev, hlast, Option.bind_eq_bind, Option.bind_some]
      exact hsum
    · rw [htotal, UInt64.toNat_add, List.map_append, List.sum_append]
      simp only [List.map_cons, List.map_nil, List.sum_singleton]
      omega

/-- Below the copy of the depth a time is stored. -/
theorem Collects.stores (h : Collects m batch) (e : Execution)
    (hroom : batch.length < depth % 2 ^ 16) : ∃ m',
      m.execute e = some (m', .stored batch.length e.elapsed) ∧
      Collects m' (batch ++ [e.elapsed]) := by
  have hle := Nat.mod_le depth (2 ^ 16)
  have hin : m.x_nIdx.toNat < depth := by
    rw [h.x_nIdx]
    omega
  have hlt : m.x_nIdx < UInt16.ofNat depth := by
    rw [UInt16.lt_iff_toNat_lt, toNat_x_depth, h.x_nIdx]
    exact hroom
  refine ⟨⟨m.x_nIdx + 1, m.x_data.set m.x_nIdx.toNat e.elapsed hin⟩, ?_, ?_⟩
  · rw [← h.x_nIdx]
    unfold execute
    simp only [if_pos hlt, dif_pos hin]
  · constructor
    case x_nIdx =>
      have hsmall := Nat.mod_lt depth (Nat.two_pow_pos 16)
      show (m.x_nIdx + 1).toNat = _
      rw [UInt16.toNat_add, UInt16.toNat_one, h.x_nIdx, List.length_append, List.length_singleton]
      exact Nat.mod_eq_of_lt (Nat.lt_of_le_of_lt hroom hsmall)
    case length =>
      rw [List.length_append, List.length_singleton]
      exact hroom
    case x_data =>
      have hlength : batch.length < m.x_data.toList.length := by
        rw [Vector.length_toList, ← h.x_nIdx]
        exact hin
      rw [Vector.toList_set, List.length_append, List.length_singleton, List.take_add_one, h.x_nIdx,
        List.take_set_of_le (Nat.le_refl _), h.x_data, List.getElem?_set_self hlength]
      rfl

/-- At it a batch is printed. -/
theorem Collects.prints (h : Collects m batch) (e : Execution)
    (hfull : batch.length = depth % 2 ^ 16) : ∃ m' sum,
      m.execute e = some (m', .printed sum (UInt16.ofNat depth)) ∧ Collects m' [] ∧
      sum.toNat = (batch.map UInt64.toNat).sum % 2 ^ 64 := by
  have hge : ¬ m.x_nIdx < UInt16.ofNat depth := by
    rw [UInt16.lt_iff_toNat_lt, toNat_x_depth, h.x_nIdx, hfull]
    exact Nat.lt_irrefl _
  obtain ⟨total, hsum, htotal⟩ := sumDown_eq 0 h.x_nIdx h.x_data
  refine ⟨{ m with x_nIdx := 0 }, total, ?_, ⟨rfl, Nat.zero_le _, rfl⟩, ?_⟩
  · unfold execute
    simp only [if_neg hge, h.x_nIdx, hsum]
    rfl
  · rw [htotal]
    show (0 + _) % _ = _
    rw [Nat.zero_add]

/-! ## A run -/

/-- The times stored since the last print. -/
def storedSince (dids : List Executed) : List UInt64 :=
  dids.foldl (fun batch did =>
    match did with
    | .stored _ elapsed => batch ++ [elapsed]
    | .printed _ _ => []) []

theorem run_concat (es : List Execution) (e : Execution) : run depth (es ++ [e]) =
    (run depth es).bind fun s => (s.1.execute e).map fun r => (r.1, s.2 ++ [r.2]) := by
  unfold run
  rw [List.foldlM_append]
  refine congrArg _ (funext fun s => ?_)
  cases hexec : s.1.execute e <;> simp [hexec]

/-- **A run never leaves the array**, and its variables hold the batch of the times so far. -/
theorem run_collects (depth : Nat) (es : List Execution) : ∃ m dids,
    run depth es = some (m, dids) ∧
      Collects m (Batches.kept (depth % 2 ^ 16) (es.map Execution.elapsed)) ∧
      storedSince dids = Batches.kept (depth % 2 ^ 16) (es.map Execution.elapsed) := by
  induction es using List.reverseRecOn with
  | nil => exact ⟨{}, [], rfl, .init, rfl⟩
  | append_singleton es e ih =>
    obtain ⟨m, dids, hrun, hm, hdids⟩ := ih
    rw [List.map_append, List.map_singleton, Batches.kept_concat]
    generalize Batches.kept (depth % 2 ^ 16) (es.map Execution.elapsed) = batch at hm hdids ⊢
    unfold Batches.add
    by_cases hroom : batch.length < depth % 2 ^ 16
    · obtain ⟨m', hexec, hm'⟩ := hm.stores e hroom
      refine ⟨m', dids ++ [.stored batch.length e.elapsed], ?_, ?_, ?_⟩
      · rw [run_concat, hrun, Option.bind_some, hexec]
        rfl
      · rw [if_pos hroom]
        exact hm'
      · rw [if_pos hroom, ← hdids]
        exact List.foldl_concat ..
    · have hfull := Nat.le_antisymm hm.length (Nat.not_lt.mp hroom)
      obtain ⟨m', sum, hexec, hm', -⟩ := hm.prints e hfull
      refine ⟨m', dids ++ [.printed sum (UInt16.ofNat depth)], ?_, ?_, ?_⟩
      · rw [run_concat, hrun, Option.bind_some, hexec]
        rfl
      · rw [if_neg hroom]
        exact hm'
      · rw [if_neg hroom]
        exact List.foldl_concat ..

/-! ## Exact batches -/

/-- What an execution does is exact, after executions that did `dids`: a time is stored inside the
    array, and what is printed is the sum of the `depth` times stored since the last print, divided
    by `depth`, with the index back at zero. -/
def ExactAfter (dids : List Executed) (e : Execution) (m' : FuncMetrics depth) : Executed → Prop
  | .stored index elapsed => index < depth ∧ elapsed = e.elapsed
  | .printed sum x_depth =>
    (storedSince dids).length = depth ∧ sum.toNat = ((storedSince dids).map UInt64.toNat).sum ∧
      x_depth.toNat = depth ∧ x_depth ≠ 0 ∧ m'.x_nIdx = 0

/-- Every execution of the run has an outcome, and what it does is exact. -/
def BatchesExact (depth : Nat) (es : List Execution) : Prop :=
  ∀ pre e post, es = pre ++ e :: post → ∃ (m : FuncMetrics depth) (dids : List Executed)
    (m' : FuncMetrics depth) (did : Executed), run depth pre = some (m, dids) ∧
      m.execute e = some (m', did) ∧ ExactAfter dids e m' did

/-- The block is not executed often enough to print; or the depth is a number of 16 bits, and the
    `depth` times before an execution that prints add up to a number of 64 bits. -/
def BatchesFit (depth : Nat) (es : List Execution) : Prop :=
  es.length ≤ depth % 2 ^ 16 ∨ depth < 2 ^ 16 ∧ ∀ pre e post, es = pre ++ e :: post →
    depth + 1 ∣ pre.length + 1 →
      ((pre.drop (pre.length - depth)).map (·.elapsed.toNat)).sum < 2 ^ 64

/-- One execution: it is the prints that have to be exact. -/
theorem exactAfter_iff (hd : 0 < depth) (pre : List Execution) (e : Execution) :
    (∃ (m : FuncMetrics depth) (dids : List Executed) (m' : FuncMetrics depth) (did : Executed),
      run depth pre = some (m, dids) ∧ m.execute e = some (m', did) ∧ ExactAfter dids e m' did) ↔
    (pre.length % (depth % 2 ^ 16 + 1) = depth % 2 ^ 16 → depth < 2 ^ 16 ∧
      ((pre.drop (pre.length - depth)).map (·.elapsed.toNat)).sum < 2 ^ 64) := by
  obtain ⟨m, dids, hrun, hm, hdids⟩ := run_collects depth pre
  have hlength := Batches.length_kept (depth % 2 ^ 16) (pre.map Execution.elapsed)
  rw [List.length_map] at hlength
  by_cases hfull : pre.length % (depth % 2 ^ 16 + 1) = depth % 2 ^ 16
  · have hbatch : Batches.kept (depth % 2 ^ 16) (pre.map Execution.elapsed) =
        (pre.drop (pre.length - depth % 2 ^ 16)).map Execution.elapsed := by
      rw [Batches.kept_of_full (by rw [List.length_map]; exact hfull), List.length_map,
        List.map_drop]
    rw [hbatch] at hm hdids hlength
    rw [hfull] at hlength
    obtain ⟨m', sum, hexec, hm', hsum⟩ := hm.prints e hlength
    rw [List.map_map] at hsum
    constructor
    · rintro ⟨m₁, dids₁, m₁', did, hrun₁, hexec₁, hexact⟩ -
      obtain ⟨rfl, rfl⟩ := Prod.mk.inj (Option.some.inj (hrun.symm.trans hrun₁))
      obtain ⟨rfl, rfl⟩ := Prod.mk.inj (Option.some.inj (hexec.symm.trans hexec₁))
      obtain ⟨hcount, htotal, -⟩ := hexact
      rw [hdids] at hcount htotal
      have hcopy := hlength.symm.trans hcount
      rw [hcopy] at hsum htotal
      rw [List.map_map] at htotal
      refine ⟨by rw [← hcopy]; exact Nat.mod_lt _ (Nat.two_pow_pos 16), ?_⟩
      exact Nat.lt_of_lt_of_eq (htotal ▸ sum.toNat_lt) rfl
    · intro hfits
      obtain ⟨hsmall, htotal⟩ := hfits hfull
      have hcopy := Nat.mod_eq_of_lt hsmall
      rw [hcopy] at hsum hdids hlength
      refine ⟨m, dids, m', _, hrun, hexec, ?_, ?_, ?_, ?_, ?_⟩
      · rw [hdids, hlength]
      · rw [hdids, List.map_map, hsum]
        exact Nat.mod_eq_of_lt htotal
      · rw [toNat_x_depth, hcopy]
      · intro hzero
        have hcopied := toNat_x_depth depth
        rw [hzero, hcopy] at hcopied
        exact absurd hcopied (Nat.ne_of_lt hd)
      · exact UInt16.toNat_inj.mp hm'.x_nIdx
  · -- a time is stored, whatever the depth is
    apply iff_of_true _ fun h => absurd h hfull
    have hroom := Nat.lt_of_le_of_ne hm.length (hlength ▸ hfull)
    obtain ⟨m', hexec, -⟩ := hm.stores e hroom
    have hindex := Nat.lt_of_lt_of_le hroom (Nat.mod_le depth (2 ^ 16))
    exact ⟨m, dids, m', _, hrun, hexec, hindex, rfl⟩

/-- **The batches of a block are exact** when they fit. -/
theorem batches_exact_iff (depth : Nat) (hd : 0 < depth) (es : List Execution) :
    BatchesExact depth es ↔ BatchesFit depth es := by
  unfold BatchesExact
  simp only [exactAfter_iff hd]
  constructor
  · intro hexact
    by_cases hfew : es.length ≤ depth % 2 ^ 16
    · exact Or.inl hfew
    · -- some execution prints
      obtain ⟨pre, e, post, hes, hfull⟩ := Batches.exists_full_iff.mpr (Nat.not_le.mp hfew)
      obtain ⟨hsmall, -⟩ := hexact pre e post hes hfull
      refine Or.inr ⟨hsmall, fun pre e post hes hround => ?_⟩
      apply (hexact pre e post hes _).2
      rw [Nat.mod_eq_of_lt hsmall]
      exact Batches.dvd_succ_iff.mp hround
  · rintro (hfew | ⟨hsmall, hfits⟩) pre e post hes hfull
    · have hlong := Batches.exists_full_iff.mp ⟨pre, e, post, hes, hfull⟩
      exact absurd hfew (Nat.not_le.mpr hlong)
    · rw [Nat.mod_eq_of_lt hsmall] at hfull
      exact ⟨hsmall, hfits pre e post hes (Batches.dvd_succ_iff.mpr hfull)⟩

/-- Two times are stored, and the third execution prints them. -/
def threeExecutions : List Execution := [⟨100, 103⟩, ⟨110, 115⟩, ⟨120, 121⟩]

theorem threeExecutions_exact : BatchesExact 2 threeExecutions := by
  apply (batches_exact_iff 2 (by decide) threeExecutions).mpr
  apply Or.inr
  constructor
  · decide
  · rw [threeExecutions, forall_places_cons, forall_places_cons, forall_places_cons]
    exact ⟨by decide, by decide, by decide, forall_places_nil⟩

/-- With a depth of `2 ^ 16` the first execution divides by zero. -/
theorem wideDepth_dividesByZero : ¬ ∀ depth es, 0 < depth → BatchesExact depth es := by
  intro h
  obtain ⟨m, dids, m', did, hrun, hexec, hexact⟩ :=
    h 65536 [⟨100, 103⟩] (by decide) [] ⟨100, 103⟩ [] rfl
  obtain ⟨rfl, rfl⟩ := Prod.mk.inj (Option.some.inj hrun)
  have hinit : Collects ({} : FuncMetrics 65536) [] := .init
  obtain ⟨m₁, sum, hprint, -, -⟩ := hinit.prints ⟨100, 103⟩ (by decide)
  obtain ⟨rfl, rfl⟩ := Prod.mk.inj (Option.some.inj (hexec.symm.trans hprint))
  obtain ⟨-, -, -, hzero, -⟩ := hexact
  exact hzero rfl

end FuncMetrics
end RdkPerf

import RdkPerf.Proof.Delays

/-!
# The gaps grow to a hundred minutes

`MAX_DELAY` is compared with `m_nDelay`, which counts iterations of ten seconds, and is announced
multiplied by these. So the gaps do settle, at 6000 seconds, and leave the ten minutes behind with
the thirteenth report.

The `i`-th announcement is the same in every run that gets to it (`announcements_eq`): a run decides
only how many there are. With the process always there that is known to the iteration
(`lt_due_iff`).
-/

namespace RdkPerf
namespace TimerCallback

/-! ## What is announced -/

/-- What the `i`-th report announces. -/
def gap (i : Nat) : UInt32 := raised^[i + 1] 0 * TIMER_INTERVAL_SECONDS

theorem toNat_raised_iterate (k : Nat) : (raised^[k] 0).toNat = min (5 * k) 600 := by
  induction k with
  | zero => rfl
  | succ k ih =>
    have hle : (raised^[k] 0).toNat ≤ 604 := by
      rw [ih]
      omega
    rw [Function.iterate_succ_apply', toNat_raised hle, ih]
    split <;> omega

theorem toNat_gap (i : Nat) : (gap i).toNat = min (50 * (i + 1)) 6000 := by
  unfold gap
  rw [UInt32.toNat_mul, toNat_raised_iterate]
  show min (5 * (i + 1)) 600 * 10 % 2 ^ 32 = _
  omega

theorem announcements_concat (t : TimerCallback) (found : List Bool) (f : Bool) :
    t.announcements (found ++ [f]) = t.announcements found ++
      if ((t.afterLoops found).loop f).2 then [((t.afterLoops found).loop f).1.announced] else [] := by
  induction found generalizing t with
  | nil => exact List.append_nil _
  | cons f' found ih =>
    rw [List.cons_append, announcements, announcements, ih, List.append_assoc]
    rfl

/-- The delay says how often it was raised, and it is raised by the reports. -/
theorem nDelay_loops (found : List Bool) : (loops found).nDelay = raised^[due found] 0 := by
  induction found using List.reverseRecOn with
  | nil => rfl
  | append_singleton found f ih =>
    cases f with
    | false =>
      rw [due_concat, loops, afterLoops_concat]
      exact ih
    | true =>
      by_cases hgt : (loops found).nDelay < (loops found).nCount
      · obtain ⟨hcounters, hdue⟩ := loops_concat_of_gt hgt
        rw [hdue, Function.iterate_succ_apply', ← ih]
        exact congrArg Prod.fst hcounters
      · obtain ⟨hcounters, hdue⟩ := loops_concat_of_le (UInt32.not_lt.mp hgt)
        rw [hdue, ← ih]
        exact congrArg Prod.fst hcounters

/-- **What is announced depends on the report only.** -/
theorem announcements_eq (found : List Bool) :
    ({} : TimerCallback).announcements found = (List.range (due found)).map gap := by
  induction found using List.reverseRecOn with
  | nil => rfl
  | append_singleton found f ih =>
    rw [announcements_concat, due_concat, ih]
    show _ ++ (if ((loops found).loop f).2 then [((loops found).loop f).1.announced] else []) = _
    cases hreport : ((loops found).loop f).2 with
    | false => exact List.append_nil _
    | true =>
      have hdelay := nDelay_loops (found ++ [f])
      rw [due_concat, hreport, loops, afterLoops_concat] at hdelay
      rw [if_pos rfl, if_pos rfl, List.range_succ, List.map_append]
      exact congrArg (fun d => _ ++ [d * TIMER_INTERVAL_SECONDS]) hdelay

/-! ## How many reports there are -/

/-- The process is there in each of `n` iterations. -/
def present (n : Nat) : List Bool := List.replicate n true

theorem present_succ (n : Nat) : present (n + 1) = present n ++ [true] := List.replicate_succ'

theorem bounded_loops (found : List Bool) : (loops found).Bounded := Bounded.init.afterLoops

theorem toNat_nDelay_loops (found : List Bool) :
    (loops found).nDelay.toNat = min (5 * due found) 600 := by
  rw [nDelay_loops, toNat_raised_iterate]

/-- The reports so far and the count say how many iterations there were, while the delay grows:
    `5 k + 1` lead from the `k`-th report to the next. -/
theorem pace {n : Nat} (hk : due (present n) ≤ 120) :
    2 * n + 3 * due (present n) =
      5 * (due (present n) * due (present n)) + 2 * (loops (present n)).nCount.toNat := by
  induction n with
  | zero => rfl
  | succ n ih =>
    have hbounded := bounded_loops (present n)
    have hcount := hbounded.nCount
    have hdelay := toNat_nDelay_loops (present n)
    rw [present_succ] at hk ⊢
    by_cases hgt : (loops (present n)).nDelay < (loops (present n)).nCount
    · obtain ⟨hcounters, hdue⟩ := loops_concat_of_gt hgt
      have hone : (loops (present n ++ [true])).nCount = 1 := congrArg Prod.snd hcounters
      rw [hdue] at hk ⊢
      rw [UInt32.lt_iff_toNat_lt] at hgt
      have hpace := ih (Nat.le_of_succ_le hk)
      rw [hone, UInt32.toNat_one]
      -- a report is made with the count one above the delay
      have hfull : (loops (present n)).nCount.toNat = 5 * due (present n) + 1 := by omega
      rw [hfull] at hpace
      have hsquare : (due (present n) + 1) * (due (present n) + 1) =
          due (present n) * due (present n) + 2 * due (present n) + 1 := by ring
      rw [hsquare]
      omega
    · obtain ⟨hcounters, hdue⟩ := loops_concat_of_le (UInt32.not_lt.mp hgt)
      have hnext : (loops (present n ++ [true])).nCount = (loops (present n)).nCount + 1 :=
        congrArg Prod.snd hcounters
      rw [hdue] at hk ⊢
      have hpace := ih hk
      rw [hnext, toNat_succ (by omega)]
      omega

/-- **When a report is made**, up to the last that raises the delay. -/
theorem lt_due_iff {n k : Nat} (hk : k < 120) :
    k < due (present n) ↔ 5 * (k * k) + 7 * k + 2 < 2 * n := by
  constructor
  · intro h
    induction n with
    | zero => exact absurd h (Nat.not_lt_zero _)
    | succ n ih =>
      by_cases hearlier : k < due (present n)
      · have := ih hearlier
        omega
      · -- this is the iteration that makes it
        rw [present_succ] at h
        by_cases hgt : (loops (present n)).nDelay < (loops (present n)).nCount
        · obtain ⟨-, hdue⟩ := loops_concat_of_gt hgt
          rw [UInt32.lt_iff_toNat_lt, toNat_nDelay_loops] at hgt
          obtain rfl : k = due (present n) := by omega
          have hpace := pace (Nat.le_of_lt hk)
          omega
        · obtain ⟨-, hdue⟩ := loops_concat_of_le (UInt32.not_lt.mp hgt)
          rw [hdue] at h
          exact absurd h hearlier
  · intro h
    by_contra hfew
    have hle := Nat.not_lt.mp hfew
    have hpace := pace (hle.trans (Nat.le_of_lt hk))
    have hcount := (bounded_loops (present n)).nCount
    rw [toNat_nDelay_loops] at hcount
    have hsquare := Nat.mul_le_mul hle hle
    omega

/-! ## The gaps of a run -/

/-- What a run of `n` iterations announces. -/
def announcedBy (n : Nat) : List UInt32 := ({} : TimerCallback).announcements (present n)

/-- The announced delays do not decrease, are ten minutes at most, and from some report on they are
    what that one announced, however long the run goes on. -/
structure GapsSettle (n : Nat) : Prop where
  neverDecrease : (announcedBy n).Pairwise (· ≤ ·)
  atMostMax : ∀ a ∈ announcedBy n, a ≤ MAX_DELAY
  constant : ∃ (k : Nat) (c : UInt32), (∃ m, (announcedBy m)[k]? = some c) ∧
    ∀ (m i : Nat) (a : UInt32), k ≤ i → (announcedBy m)[i]? = some a → a = c

theorem announcedBy_eq (n : Nat) : announcedBy n = (List.range (due (present n))).map gap :=
  announcements_eq (present n)

theorem announcedBy_mono (n : Nat) : (announcedBy n).Pairwise (· ≤ ·) := by
  rw [announcedBy_eq]
  apply List.Pairwise.map gap _ List.pairwise_lt_range
  intro i j hij
  rw [UInt32.le_iff_toNat_le, toNat_gap, toNat_gap]
  omega

/-- The last raise is the 120th report's. -/
theorem gap_steady {i : Nat} (hi : 119 ≤ i) : gap i = 6000 := by
  apply UInt32.toNat_inj.mp
  rw [toNat_gap]
  show min (50 * (i + 1)) 6000 = 6000
  omega

theorem announcedBy_get {n i : Nat} {a : UInt32} :
    (announcedBy n)[i]? = some a ↔ i < due (present n) ∧ a = gap i := by
  rw [announcedBy_eq, List.getElem?_map]
  by_cases hi : i < due (present n)
  · rw [List.getElem?_range hi]
    simp [hi, eq_comm]
  · rw [List.getElem?_eq_none (by simpa using hi)]
    simp [hi]

/-- **The gaps reach a steady state.** -/
theorem announcedBy_steady : ∃ (k : Nat) (c : UInt32), (∃ m, (announcedBy m)[k]? = some c) ∧
    ∀ (m i : Nat) (a : UInt32), k ≤ i → (announcedBy m)[i]? = some a → a = c := by
  refine ⟨119, 6000, ⟨35821, ?_⟩, ?_⟩
  · rw [announcedBy_get]
    exact ⟨(lt_due_iff (by omega)).mpr (by omega), (gap_steady (Nat.le_refl _)).symm⟩
  · intro m i a hi hget
    obtain ⟨-, rfl⟩ := announcedBy_get.mp hget
    exact gap_steady hi

/-- **The gaps settle as documented** for as long as twelve reports take. -/
theorem gaps_settle_iff (n : Nat) : GapsSettle n ↔ n < 404 := by
  have hten : (∀ a ∈ announcedBy n, a ≤ MAX_DELAY) ↔ due (present n) ≤ 12 := by
    rw [announcedBy_eq, List.forall_mem_map]
    have hgap : ∀ i, gap i ≤ MAX_DELAY ↔ i < 12 := by
      intro i
      rw [UInt32.le_iff_toNat_le, toNat_gap]
      show min (50 * (i + 1)) 6000 ≤ 600 ↔ i < 12
      omega
    simp only [List.mem_range, hgap]
    constructor
    · intro h
      by_contra hmany
      exact absurd (h 12 (Nat.not_le.mp hmany)) (Nat.lt_irrefl 12)
    · intro hfew i hi
      exact Nat.lt_of_lt_of_le hi hfew
  constructor
  · intro h
    have hfew := hten.mp h.atMostMax
    by_contra hlong
    have hmany := (lt_due_iff (n := n) (k := 12) (by omega)).mpr (by omega)
    omega
  · intro hn
    refine ⟨announcedBy_mono n, hten.mpr ?_, announcedBy_steady⟩
    by_contra hmany
    have hlong := (lt_due_iff (by omega)).mp (Nat.not_le.mp hmany)
    omega

/-- The thirteenth report announces 650 seconds. -/
theorem thirteenthReport_exceeds : ¬ ∀ n, GapsSettle n := by
  intro h
  have hmade : (announcedBy 404)[12]? = some 650 :=
    announcedBy_get.mpr ⟨(lt_due_iff (by omega)).mpr (by omega), by decide⟩
  exact absurd ((h 404).atMostMax 650 (List.mem_of_getElem? hmade)) (by decide)

end TimerCallback
end RdkPerf

import RdkPerf.Proof.ThresholdReports

/-!
# A threshold above `2 ^ 31` is no threshold

The interface takes a threshold as a `uint32_t`, a record keeps it as an `int32_t`, and the
destructor tests for more than zero. From `2 ^ 31` on the number is negative by then: a call that
takes longer than such a threshold is not reported, however long it takes.
-/

namespace RdkPerf

open Lib

/-- A stop of `h` now comes later after the start than the threshold given last, if that is not
    zero. -/
def PassesThreshold (pre : List Op) (h : Handle) (env : Env) : Prop :=
  ∃ startTime nThresholdInUS nUS, openingOf pre h = some (startTime, nThresholdInUS) ∧
    thresholdOf pre h = some nUS ∧ nUS ≠ 0 ∧ nUS.toUInt64 < env.timeStamp - startTime

/-- The threshold given last is one that stays positive, or it is not passed anyway. -/
def SignedInRange (pre : List Op) (h : Handle) (env : Env) : Prop :=
  ∀ startTime nThresholdInUS nUS, openingOf pre h = some (startTime, nThresholdInUS) →
    thresholdOf pre h = some nUS → nUS < 2 ^ 31 ∨ env.timeStamp - startTime ≤ nUS.toUInt64

/-- The sign test, on the number that was given. -/
theorem toInt32_pos_iff {nUS : UInt32} : 0 < nUS.toInt32 ↔ nUS ≠ 0 ∧ nUS < 2 ^ 31 := by
  have hlt := nUS.toNat_lt
  rw [Int32.lt_iff_toInt_lt, UInt32.lt_iff_toNat_lt, Ne, ← UInt32.toNat_inj, toInt_toInt32]
  show (0 : Int) < _ ↔ nUS.toNat ≠ 0 ∧ nUS.toNat < 2147483648
  split <;> omega

/-- What the destructor reports is what passes its threshold, and is in range. -/
theorem exceeds_iff_passes {pre : List Op} {h : Handle} {env : Env} :
    (Exceeds pre h env ↔ PassesThreshold pre h env) ↔ SignedInRange pre h env := by
  constructor
  · intro hiff startTime nThr nUS hopen hthr
    by_cases hpasses : nUS ≠ 0 ∧ nUS.toUInt64 < env.timeStamp - startTime
    · -- then it is reported, so the sign test did not fail
      obtain ⟨_, _, nUS', -, hthr', hpos, -⟩ :=
        hiff.mpr ⟨startTime, nThr, nUS, hopen, hthr, hpasses⟩
      obtain rfl := Option.some.inj (hthr.symm.trans hthr')
      exact Or.inl (toInt32_pos_iff.mp hpos).2
    · by_cases hzero : nUS = 0
      · exact Or.inl (by rw [hzero]; decide)
      · exact Or.inr (UInt64.not_lt.mp fun hlt => hpasses ⟨hzero, hlt⟩)
  · intro hrange
    constructor
    · rintro ⟨startTime, nThr, nUS, hopen, hthr, hpos, hlt⟩
      exact ⟨startTime, nThr, nUS, hopen, hthr, (toInt32_pos_iff.mp hpos).1, hlt⟩
    · rintro ⟨startTime, nThr, nUS, hopen, hthr, hzero, hlt⟩
      have hsmall := (hrange startTime nThr nUS hopen hthr).resolve_right (UInt64.not_le.mpr hlt)
      exact ⟨startTime, nThr, nUS, hopen, hthr, toInt32_pos_iff.mpr ⟨hzero, hsmall⟩, hlt⟩

/-- **The threshold check is exact** for the stop of a record exactly when its threshold is below
    `2 ^ 31`, or not passed. -/
theorem threshold_check_iff (pID : pid_t) (pre : List Op) (s s' : InProc) (caller : Caller)
    (h : Handle) (env : Env) (hs : InProc.run pID pre = .ok s)
    (hstep : s.step (.stop caller h env) = .ok s') :
    (PrintsThreshold s.mem s'.mem ↔ PassesThreshold pre h env) ↔ SignedInRange pre h env := by
  rw [printsThreshold_iff hs hstep]
  exact exceeds_iff_passes

/-- Started with a threshold of 5, which is raised to 50 and then set to 9. -/
def setTwice : List Op :=
  [.start threadA nameF (some 5) { timeStamp := 100 }, .setThreshold threadA 0 50,
    .setThreshold threadA 0 9]

theorem setTwice_exact : ∃ s s', InProc.run 42 setTwice = .ok s ∧
    s.step (.stop threadA 0 { timeStamp := 110 }) = .ok s' ∧
    (PrintsThreshold s.mem s'.mem ↔ PassesThreshold setTwice 0 { timeStamp := 110 }) ∧
    PassesThreshold setTwice 0 { timeStamp := 110 } := by
  obtain ⟨s, hs, hread⟩ := ok_of_toOption_bind (show (InProc.run 42 setTwice).toOption.bind
    (fun s => (s.step (.stop threadA 0 { timeStamp := 110 })).toOption.bind fun s' => some s'.pID) =
      some 42 by decide)
  obtain ⟨s', hstep, -⟩ := ok_of_toOption_bind hread
  refine ⟨s, s', hs, hstep,
    (threshold_check_iff 42 setTwice s s' threadA 0 _ hs hstep).mpr ?_,
    100, some 5, 9, rfl, rfl, by decide, by decide⟩
  intro startTime nThr nUS hopen hthr
  obtain rfl := Option.some.inj hthr
  exact Or.inl (by decide)

/-- Fifty minutes are the threshold, and the call takes more than an hour. -/
def longThreshold : List Op := [.start threadA nameF (some 3000000000) { timeStamp := 100 }]

theorem longThreshold_unreported : ∃ s s', InProc.run 42 longThreshold = .ok s ∧
    s.step (.stop threadA 0 { timeStamp := 4000000100 }) = .ok s' ∧
    PassesThreshold longThreshold 0 { timeStamp := 4000000100 } ∧
    ¬ PrintsThreshold s.mem s'.mem := by
  obtain ⟨s, hs, hread⟩ := ok_of_toOption_bind (show (InProc.run 42 longThreshold).toOption.bind
    (fun s => (s.step (.stop threadA 0 { timeStamp := 4000000100 })).toOption.bind fun s' =>
      some (s.mem.log, s'.mem.log)) = some ([], []) by decide)
  obtain ⟨s', hstep, hlogs⟩ := ok_of_toOption_bind hread
  obtain ⟨hlog, hlog'⟩ := Prod.mk.inj (Option.some.inj hlogs)
  exact ⟨s, s', hs, hstep, ⟨100, some 3000000000, 3000000000, rfl, rfl, by decide, by decide⟩,
    not_printsThreshold (hlog'.trans hlog.symm)⟩

end RdkPerf

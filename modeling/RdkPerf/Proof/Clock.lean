import RdkPerf.Model.Clock

/-!
# A marker and an elapsed reading

`Now` as `Marker` and then as `Elapsed` leaves what each clock has advanced by. It does for the
wall clock and for the system time, as long as the difference is a number of 64 bits. The user time
is the one that `SetCPU` drops when the system time of the reading is zero, and it does not drop
both of a pair alike: between a reading before the first tick of system time and one after it, the
elapsed user time is all there ever was.

`userShown` is the user time a reading leaves in a clock, and everything is said with it.
-/

namespace RdkPerf

/-- The microseconds of a `timeval`. -/
def microseconds (sec usec : UInt64) : Nat := sec.toNat * 1000000 + usec.toNat

namespace Reading

variable (r : Reading)

def wallClock : Nat := microseconds r.tvSec r.tvUsec
def userCPU : Nat := microseconds r.utimeSec r.utimeUsec
def systemCPU : Nat := microseconds r.stimeSec r.stimeUsec

/-- The user time `SetCPU` takes from the reading. -/
def userShown : Nat := if r.systemCPU = 0 then 0 else r.userCPU

theorem systemCPU_eq_zero_iff : r.systemCPU = 0 ↔ r.stimeSec = 0 ∧ r.stimeUsec = 0 := by
  rw [← UInt64.toNat_inj, ← UInt64.toNat_inj]
  show r.stimeSec.toNat * 1000000 + r.stimeUsec.toNat = 0 ↔
    r.stimeSec.toNat = 0 ∧ r.stimeUsec.toNat = 0
  omega

end Reading

/-- No clock goes back between the two readings. -/
structure NoDecrease (r₁ r₂ : Reading) : Prop where
  wallClock : r₁.wallClock ≤ r₂.wallClock
  userCPU : r₁.userCPU ≤ r₂.userCPU
  systemCPU : r₁.systemCPU ≤ r₂.systemCPU

namespace PerfClock

variable {c : PerfClock} {r r₁ r₂ : Reading} {rs : List Reading}

/-- `Now(&c, Marker)` and `Now(&c, Elapsed)`. -/
def measure (c : PerfClock) (r₁ r₂ : Reading) : PerfClock := (c.now .marker r₁).now .elapsed r₂

/-- The clock after each pair, where the elapsed reading of one pair is the marker of the next. -/
def measures (c : PerfClock) : Reading → List Reading → List PerfClock
  | _, [] => []
  | r₁, r₂ :: rs => c.measure r₁ r₂ :: measures (c.measure r₁ r₂) r₂ rs

/-- What the pair leaves in a clock is what each clock has advanced by. -/
structure MeasuresExactly (r₁ r₂ : Reading) : Prop where
  wallClock : ∀ c : PerfClock, (c.measure r₁ r₂).wallClock.toNat = r₂.wallClock - r₁.wallClock
  userCPU : ∀ c : PerfClock, (c.measure r₁ r₂).userCPU.toNat = r₂.userCPU - r₁.userCPU
  systemCPU : ∀ c : PerfClock, (c.measure r₁ r₂).systemCPU.toNat = r₂.systemCPU - r₁.systemCPU

/-- The differences fit their fields, and what a marker without system time drops of the user time
    is nothing, or nothing that changes. -/
structure Measurable (r₁ r₂ : Reading) : Prop where
  wallClock : r₂.wallClock - r₁.wallClock < 2 ^ 64
  userCPU : r₂.userCPU - r₁.userCPU < 2 ^ 64
  systemCPU : r₂.systemCPU - r₁.systemCPU < 2 ^ 64
  unchanged : r₁.systemCPU = 0 → r₂.systemCPU = 0 → r₂.userCPU = r₁.userCPU
  nothing : r₁.systemCPU = 0 → r₂.systemCPU ≠ 0 → r₁.userCPU % 2 ^ 64 = 0

/-! ## One reading -/

theorem toNat_convertToUS (sec usec : UInt64) :
    (convertToUS sec usec).toNat = microseconds sec usec % 2 ^ 64 := by
  unfold convertToUS microseconds
  rw [UInt64.toNat_add, UInt64.toNat_mul, Nat.mod_add_mod]
  rfl

theorem setCPU_systemCPU (c : PerfClock) (r : Reading) :
    (c.setCPU r).systemCPU.toNat = r.systemCPU % 2 ^ 64 := by
  unfold setCPU
  split
  · next hzero =>
    rw [r.systemCPU_eq_zero_iff.mpr hzero]
    rfl
  · exact toNat_convertToUS _ _

theorem setCPU_userCPU (c : PerfClock) (r : Reading) :
    (c.setCPU r).userCPU.toNat = r.userShown % 2 ^ 64 := by
  unfold setCPU Reading.userShown
  split
  · next hzero =>
    rw [if_pos (r.systemCPU_eq_zero_iff.mpr hzero)]
    rfl
  · next hpos =>
    rw [if_neg (mt r.systemCPU_eq_zero_iff.mp hpos)]
    exact toNat_convertToUS _ _

@[simp] theorem setCPU_wallClock (c : PerfClock) (r : Reading) :
    (c.setCPU r).wallClock = c.wallClock := by
  unfold setCPU
  split <;> rfl

/-- Either operation reads the clocks the same way. -/
theorem read (c : PerfClock) (r : Reading) :
    ((c.setWallClock r).setCPU r).wallClock.toNat = r.wallClock % 2 ^ 64 ∧
      ((c.setWallClock r).setCPU r).userCPU.toNat = r.userShown % 2 ^ 64 ∧
      ((c.setWallClock r).setCPU r).systemCPU.toNat = r.systemCPU % 2 ^ 64 := by
  refine ⟨?_, setCPU_userCPU _ r, setCPU_systemCPU _ r⟩
  rw [setCPU_wallClock]
  exact toNat_convertToUS _ _

/-! ## A pair -/

/-- A difference of two figures is right exactly when it fits. -/
theorem toNat_sub_eq_iff {a b : UInt64} {x y : Nat} (ha : a.toNat = x % 2 ^ 64)
    (hb : b.toNat = y % 2 ^ 64) {d : Nat} :
    (b - a).toNat = d ↔ d < 2 ^ 64 ∧ (d + x) % 2 ^ 64 = y % 2 ^ 64 := by
  rw [UInt64.toNat_sub, ha, hb]
  omega

theorem getters (c : PerfClock) : c.getWallClock .microsecond = c.wallClock ∧
    c.getUserCPU .microsecond = c.userCPU ∧ c.getSystemCPU .microsecond = c.systemCPU := by
  have hone : ∀ a : UInt64, a / TimeUnit.microsecond.divisor = a := by
    intro a
    apply UInt64.toNat_inj.mp
    rw [UInt64.toNat_div]
    exact Nat.div_one _
  exact ⟨hone _, hone _, hone _⟩

/-- What a pair leaves, as equations on the readings. -/
theorem measure_eq_iff (c : PerfClock) (r₁ r₂ : Reading) (d : Nat) :
    ((c.measure r₁ r₂).wallClock.toNat = d ↔
      d < 2 ^ 64 ∧ (d + r₁.wallClock) % 2 ^ 64 = r₂.wallClock % 2 ^ 64) ∧
    ((c.measure r₁ r₂).userCPU.toNat = d ↔
      d < 2 ^ 64 ∧ (d + r₁.userShown) % 2 ^ 64 = r₂.userShown % 2 ^ 64) ∧
    ((c.measure r₁ r₂).systemCPU.toNat = d ↔
      d < 2 ^ 64 ∧ (d + r₁.systemCPU) % 2 ^ 64 = r₂.systemCPU % 2 ^ 64) := by
  obtain ⟨hwall₁, huser₁, hsystem₁⟩ := read c r₁
  obtain ⟨hwall₂, huser₂, hsystem₂⟩ := read {} r₂
  unfold measure now
  simp only [getters]
  exact ⟨toNat_sub_eq_iff hwall₁ hwall₂, toNat_sub_eq_iff huser₁ huser₂,
    toNat_sub_eq_iff hsystem₁ hsystem₂⟩

theorem userShown_of_pos (h : r.systemCPU ≠ 0) : r.userShown = r.userCPU := if_neg h

theorem userShown_of_zero (h : r.systemCPU = 0) : r.userShown = 0 := if_pos h

theorem measuresExactly_iff (h : NoDecrease r₁ r₂) :
    MeasuresExactly r₁ r₂ ↔ Measurable r₁ r₂ := by
  have hwall := h.wallClock
  have huser := h.userCPU
  have hsystem := h.systemCPU
  have hcase : ∀ c : PerfClock, (c.measure r₁ r₂).userCPU.toNat = r₂.userCPU - r₁.userCPU ↔
      r₂.userCPU - r₁.userCPU < 2 ^ 64 ∧
        (r₁.systemCPU = 0 → r₂.systemCPU = 0 → r₂.userCPU = r₁.userCPU) ∧
        (r₁.systemCPU = 0 → r₂.systemCPU ≠ 0 → r₁.userCPU % 2 ^ 64 = 0) := by
    intro c
    rw [(measure_eq_iff c r₁ r₂ _).2.1]
    -- on which side of the first tick of system time the readings are
    by_cases h₁ : r₁.systemCPU = 0
    · by_cases h₂ : r₂.systemCPU = 0
      · rw [userShown_of_zero h₁, userShown_of_zero h₂]
        omega
      · rw [userShown_of_zero h₁, userShown_of_pos h₂]
        omega
    · have h₂ : r₂.systemCPU ≠ 0 := by omega
      rw [userShown_of_pos h₁, userShown_of_pos h₂]
      omega
  constructor
  · intro hexact
    obtain ⟨hfits, hunchanged, hnothing⟩ := (hcase {}).mp (hexact.userCPU {})
    exact ⟨((measure_eq_iff {} r₁ r₂ _).1.mp (hexact.wallClock {})).1, hfits,
      ((measure_eq_iff {} r₁ r₂ _).2.2.mp (hexact.systemCPU {})).1, hunchanged, hnothing⟩
  · intro hm
    refine ⟨fun c => ?_, fun c => ?_, fun c => ?_⟩
    · exact (measure_eq_iff c r₁ r₂ _).1.mpr ⟨hm.wallClock, by omega⟩
    · exact (hcase c).mpr ⟨hm.userCPU, hm.unchanged, hm.nothing⟩
    · exact (measure_eq_iff c r₁ r₂ _).2.2.mpr ⟨hm.systemCPU, by omega⟩

/-! ## Pairs that share their readings -/

theorem isChain_measuresExactly_iff (hmono : rs.IsChain NoDecrease) :
    rs.IsChain MeasuresExactly ↔ rs.IsChain Measurable := by
  rw [List.isChain_iff_getElem, List.isChain_iff_getElem]
  refine forall_congr' fun i => forall_congr' fun hi => measuresExactly_iff ?_
  exact List.isChain_iff_getElem.mp hmono i hi

/-- Exact pairs add up. -/
theorem measures_sum (c : PerfClock) (hmono : (r :: rs).IsChain NoDecrease)
    (h : (r :: rs).IsChain MeasuresExactly) :
    ((c.measures r rs).map (·.userCPU.toNat)).sum = (rs.getLastD r).userCPU - r.userCPU ∧
      ((c.measures r rs).map (·.systemCPU.toNat)).sum =
        (rs.getLastD r).systemCPU - r.systemCPU ∧
      r.userCPU ≤ (rs.getLastD r).userCPU ∧ r.systemCPU ≤ (rs.getLastD r).systemCPU := by
  induction rs generalizing c r with
  | nil => simp [measures]
  | cons r' rs ih =>
    obtain ⟨hnow, hmono⟩ := List.isChain_cons_cons.mp hmono
    obtain ⟨hexact, h⟩ := List.isChain_cons_cons.mp h
    obtain ⟨huser, hsystem, huser', hsystem'⟩ := ih (c.measure r r') hmono h
    have := hnow.userCPU
    have := hnow.systemCPU
    rw [List.getLastD_cons]
    simp only [measures, List.map_cons, List.sum_cons, huser, hsystem, hexact.userCPU c,
      hexact.systemCPU c]
    omega

/-- **A marker and an elapsed reading measure exactly** when the user time that is dropped with a
    system time of zero is nothing to the pair; over pairs that share their readings, the CPU times
    then add up. -/
theorem measures_exactly_iff (c : PerfClock) (r : Reading) (rs : List Reading)
    (hmono : (r :: rs).IsChain NoDecrease) :
    ((r :: rs).IsChain MeasuresExactly ∧
      ((c.measures r rs).map (·.userCPU.toNat)).sum = (rs.getLastD r).userCPU - r.userCPU ∧
      ((c.measures r rs).map (·.systemCPU.toNat)).sum =
        (rs.getLastD r).systemCPU - r.systemCPU) ↔
    (r :: rs).IsChain Measurable := by
  have hiff := isChain_measuresExactly_iff hmono
  constructor
  · exact fun h => hiff.mp h.1
  · intro h
    have hexact := hiff.mpr h
    obtain ⟨huser, hsystem, -⟩ := measures_sum c hmono hexact
    exact ⟨hexact, huser, hsystem⟩

/-- A process that has used user time, and not yet any system time. -/
def beforeFirstTick : Reading := { tvSec := 1, utimeUsec := 3000 }

def afterFirstTick : Reading := { tvSec := 2, utimeUsec := 8000, stimeUsec := 4000 }

def afterSecondTick : Reading := { tvSec := 4, utimeUsec := 9000, stimeUsec := 8000 }

def afterThirdTick : Reading := { tvSec := 5, utimeUsec := 11500, stimeUsec := 9000 }

theorem ticking_adds_up :
    [afterFirstTick, afterSecondTick, afterThirdTick].IsChain MeasuresExactly ∧
    ((measures {} afterFirstTick [afterSecondTick, afterThirdTick]).map (·.userCPU.toNat)).sum =
      3500 ∧
    ((measures {} afterFirstTick [afterSecondTick, afterThirdTick]).map (·.systemCPU.toNat)).sum =
      5000 := by
  have hmono : [afterFirstTick, afterSecondTick, afterThirdTick].IsChain NoDecrease :=
    .cons_cons ⟨by decide, by decide, by decide⟩
      (List.isChain_pair.mpr ⟨by decide, by decide, by decide⟩)
  refine (measures_exactly_iff {} afterFirstTick [afterSecondTick, afterThirdTick] hmono).mpr ?_
  exact .cons_cons ⟨by decide, by decide, by decide, by decide, by decide⟩
    (List.isChain_pair.mpr ⟨by decide, by decide, by decide, by decide, by decide⟩)

/-- Between the two readings 5 ms of user time pass, and 8 ms are measured. -/
theorem firstTick_counts_all : ¬ ∀ r₁ r₂, NoDecrease r₁ r₂ → MeasuresExactly r₁ r₂ := by
  intro h
  have huser := (h beforeFirstTick afterFirstTick ⟨by decide, by decide, by decide⟩).userCPU {}
  exact absurd huser (by decide)

end PerfClock
end RdkPerf

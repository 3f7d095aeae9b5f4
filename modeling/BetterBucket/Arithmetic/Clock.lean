import BetterBucket.Foundation.ScaledClock
import BetterBucket.Arithmetic.Rate
import BetterBucket.Engine.Core

/-!
# The engine's clock is a fixed-point clock

`units` reads a saturating fixed-point clock at the `Q64` rate, and `waitUntil` asks its inverse.
-/

namespace BetterBucket

open MachineWords ScaledClock

theorem durationNanos_eq (d : Duration) : durationNanos d = min d.asNanos (maxValue 64) := by
  unfold durationNanos saturatingAdd saturatingMul Duration.asSecs Duration.subsecNanos
  have hdiv := Nat.div_add_mod d.asNanos NANOS_PER_SEC
  rw [Nat.mul_comm] at hdiv
  omega

namespace Core

/-- The clock `units` reads, in nanoseconds. -/
def clock (self : Core) : Clock where
  frac := 64
  rate := self.rate
  origin := ORIGIN
  horizon := maxValue 64
  limit := maxValue 64

theorem dueNanos_eq (self : Core) (target : ℕ) : self.dueNanos target = self.clock.due target := by
  rw [dueNanos, Nat.shiftLeft_eq]
  rfl

/-- There is no wait for what is due after the last reading. -/
theorem waitUntil_eq_none_iff (self : Core) (target : ℕ) (now : Duration) :
    self.waitUntil target now = none ↔ maxValue 64 < self.clock.due target := by
  rw [waitUntil, dueNanos_eq]
  dsimp only
  split
  · rename_i hdue
    exact iff_of_true rfl hdue
  · rename_i hdue
    exact iff_of_false (Option.some_ne_none _) hdue

/-- The whole part and the fraction of the rate. -/
theorem rate_eq {self : Core} (hfrac : self.rateFrac < 2 ^ 64) :
    self.rate = self.rateInt * 2 ^ 64 + self.rateFrac := by
  rw [rate, ← Nat.shiftLeft_add_eq_or_of_lt hfrac, Nat.shiftLeft_eq]

/-- The two multiplications are one multiplication by the whole rate. -/
theorem units_eq_read {self : Core} (hfrac : self.rateFrac < 2 ^ 64) (now : Duration) :
    self.units now = self.clock.read now.asNanos := by
  have hrate := rate_eq hfrac
  have haccrued : (if self.rateInt ≠ 0
      then shiftRight 128 (durationNanos now * self.rateFrac) 64 + durationNanos now * self.rateInt
      else shiftRight 128 (durationNanos now * self.rateFrac) 64) =
      scaled 64 self.rate (durationNanos now) := by
    rw [shiftRight_eq_div (by omega), scaled, hrate, Nat.mul_add, ← Nat.mul_assoc,
      Nat.add_comm (durationNanos now * self.rateInt * 2 ^ 64),
      Nat.add_mul_div_right _ _ (by positivity)]
    split
    · rfl
    · rename_i hzero
      rw [not_not.mp hzero, Nat.mul_zero, Nat.add_zero]
  simp only [units]
  rw [haccrued, tryFrom_getD_maxValue, saturatingAdd, durationNanos_eq]
  simp only [clock, Clock.read]
  omega

section Valid

variable {config : BucketConfig}

theorem refillPeriod_lt (config : BucketConfig) : config.refillPeriod.asNanos < 2 ^ 94 :=
  lt_of_lt_of_le config.refillPeriod.asNanos_lt (by norm_num [NANOS_PER_SEC])

theorem deriveShift_valid (h : config.Valid) :
    Scale.UnitChoice config.capacity config.refillAmount config.refillPeriod.asNanos
      (Scale.deriveShift config.capacity config.refillAmount config.refillPeriod.asNanos) := by
  obtain ⟨hcap, hamount, hperiod⟩ := config.valid_iff.mp h
  exact Scale.deriveShift_unitChoice hcap config.capacity_lt hamount config.refillAmount_lt hperiod
    (refillPeriod_lt config)

/-- On a valid configuration `derive` takes its main path and none of its fallbacks. -/
theorem new_scale (h : config.Valid) :
    (new config).unitShift =
        Scale.deriveShift config.capacity config.refillAmount config.refillPeriod.asNanos ∧
      (new config).rateFrac < 2 ^ 64 ∧
      (new config).rate = Scale.deriveRate config.refillAmount config.refillPeriod.asNanos
        (new config).unitShift := by
  have hunit := deriveShift_valid h
  obtain ⟨hcap, hamount, hperiod⟩ := config.valid_iff.mp h
  have hrate := (Scale.deriveRate_bounds hamount config.refillAmount_lt hperiod
    (refillPeriod_lt config) hunit.low hunit.high hunit.speed).lt
  set m := Scale.deriveShift config.capacity config.refillAmount config.refillPeriod.asNanos
  set rate := Scale.deriveRate config.refillAmount config.refillPeriod.asNanos m
  -- the conversions have fallbacks, but the rate fits 72 bits and the shift fits 8
  have hderive : Scale.derive config.capacity config.refillAmount config.refillPeriod =
      ⟨rate / 2 ^ 64, rate % 2 ^ 64, m⟩ := by
    have hproper : ¬ (config.capacity = 0 ∨ config.refillAmount = 0 ∨
        config.refillPeriod.isZero = true) := by
      simp only [Duration.isZero, beq_iff_eq]
      omega
    have hint : rate / 2 ^ 64 ≤ maxValue 8 := by
      unfold maxValue
      omega
    have hmask : rate &&& maxValue 64 = rate % 2 ^ 64 := Nat.and_two_pow_sub_one_eq_mod rate 64
    have hfrac : rate % 2 ^ 64 ≤ maxValue 64 := by
      unfold maxValue
      omega
    rw [Scale.derive, if_neg hproper]
    dsimp only
    rw [shiftRight_eq_div (by omega), tryFrom_of_le hint, hmask, tryFrom_of_le hfrac,
      if_pos (by have := hunit.low; have := hunit.high; omega)]
    rfl
  have hshift : (new config).unitShift = m := by simp only [new, hderive]
  have hfracEq : (new config).rateFrac = rate % 2 ^ 64 := by simp only [new, hderive]
  have hintEq : (new config).rateInt = rate / 2 ^ 64 := by simp only [new, hderive]
  have hfracLt : (new config).rateFrac < 2 ^ 64 := by
    rw [hfracEq]
    exact Nat.mod_lt _ (by positivity)
  refine ⟨hshift, hfracLt, ?_⟩
  rw [rate_eq hfracLt, hintEq, hfracEq, hshift]
  exact Nat.div_add_mod' rate (2 ^ 64)

theorem unitChoice (h : config.Valid) :
    Scale.UnitChoice config.capacity config.refillAmount config.refillPeriod.asNanos
      (new config).unitShift := by
  rw [(new_scale h).1]
  exact deriveShift_valid h

theorem rateBounds (h : config.Valid) :
    Scale.RateBounds config.refillAmount config.refillPeriod.asNanos (new config).unitShift
      (new config).rate := by
  obtain ⟨-, hamount, hperiod⟩ := config.valid_iff.mp h
  have hunit := unitChoice h
  rw [(new_scale h).2.2]
  exact Scale.deriveRate_bounds hamount config.refillAmount_lt hperiod (refillPeriod_lt config)
    hunit.low hunit.high hunit.speed

theorem units_eq (h : config.Valid) (now : Duration) :
    (new config).units now = (new config).clock.read now.asNanos :=
  units_eq_read (new_scale h).2.1 now

theorem origin_le_units (h : config.Valid) (now : Duration) : ORIGIN ≤ (new config).units now := by
  rw [units_eq h]
  exact (new config).clock.origin_le_read (by decide : ORIGIN ≤ maxValue 64) _

theorem units_le (h : config.Valid) (now : Duration) : (new config).units now ≤ maxValue 64 := by
  rw [units_eq h]
  exact Clock.read_le_limit _ _

theorem units_mono (h : config.Valid) {a b : Duration} (hab : a ≤ b) :
    (new config).units a ≤ (new config).units b := by
  rw [units_eq h, units_eq h]
  exact Clock.read_mono _ hab

/-- The last reading of all shows the clock's end. -/
theorem units_max (h : config.Valid) : (new config).units .MAX = (new config).clock.read (maxValue 64) := by
  rw [units_eq h, ← Clock.read_min_horizon]
  rfl

theorem read_le_units_max (h : config.Valid) (ticks : ℕ) :
    (new config).clock.read ticks ≤ (new config).units .MAX := by
  rw [units_max h, ← Clock.read_min_horizon]
  exact Clock.read_mono _ (min_le_right _ _)

/-- The clock shows `target` from its due instant on, if there are readings that late. -/
theorem le_units_iff (h : config.Valid) {target : ℕ} (htarget : target ≤ maxValue 64)
    (now : Duration) : target ≤ (new config).units now ↔
      (new config).clock.due target ≤ now.asNanos ∧ (new config).clock.due target ≤ maxValue 64 := by
  rw [units_eq h, Clock.le_read_iff _ (rateBounds h).pos htarget, le_min_iff]
  rfl

/-- A due instant in the range of readings is a reading. -/
theorem exists_reading_due (h : config.Valid) {target : ℕ} (htarget : target ≤ maxValue 64)
    (hdue : (new config).clock.due target ≤ maxValue 64) :
    ∃ s : Duration, s.asNanos = (new config).clock.due target ∧ target ≤ (new config).units s := by
  have hmax : maxValue 64 < 2 ^ 64 * NANOS_PER_SEC := by decide
  exact ⟨⟨(new config).clock.due target, by omega⟩, rfl,
    (le_units_iff h htarget _).mpr ⟨le_rfl, hdue⟩⟩

/-- What lies past the clock's end is never due. -/
theorem waitUntil_eq_none (h : config.Valid) {target : ℕ} (htarget : target ≤ maxValue 64)
    (hlate : (new config).units .MAX < target) (now : Duration) :
    (new config).waitUntil target now = none := by
  have hmax : maxValue 64 ≤ Duration.MAX.asNanos := by decide
  rw [← not_le, le_units_iff h htarget] at hlate
  rw [waitUntil_eq_none_iff]
  omega

/-- A wait is the time to the due instant, rounded up to the millisecond, and never saturates. -/
theorem waitUntil_spec {self : Core} {target : ℕ} {now wait : Duration}
    (hwait : self.waitUntil target now = some wait) :
    self.clock.due target ≤ maxValue 64 ∧ wait.asNanos =
      ((self.clock.due target - durationNanos now) ⌈/⌉ NANOS_PER_MILLI) * NANOS_PER_MILLI := by
  rw [waitUntil, dueNanos_eq] at hwait
  dsimp only at hwait
  split at hwait
  · cases hwait
  · rename_i hdue
    have hmillis : (self.clock.due target - durationNanos now) ⌈/⌉ NANOS_PER_MILLI ≤ maxValue 64 := by
      rw [ceilDiv_le_iff_le_mul (by decide)]
      unfold NANOS_PER_MILLI
      omega
    rw [tryFrom_of_le hmillis, Option.getD_some, Option.some.injEq] at hwait
    refine ⟨not_lt.mp hdue, ?_⟩
    rw [← hwait]
    exact Duration.fromMillis_asNanos ((lt_two_pow_iff_le_maxValue 64 _).mpr hmillis)

/-- A wait, when there is one, ends at a reading the clock shows the target at. -/
theorem le_read_of_waitUntil (h : config.Valid) {target : ℕ} (htarget : target ≤ maxValue 64)
    {now wait : Duration} (hwait : (new config).waitUntil target now = some wait) :
    target ≤ (new config).clock.read (now.asNanos + wait.asNanos) := by
  obtain ⟨hdue, hround⟩ := waitUntil_spec hwait
  have hceil : (new config).clock.due target - durationNanos now ≤ wait.asNanos := by
    rw [hround]
    exact Scale.le_ceilDiv_mul (by decide)
  have hnanos := durationNanos_eq now
  rw [Clock.le_read_iff _ (rateBounds h).pos htarget, le_min_iff]
  refine ⟨?_, hdue⟩
  omega

/-- A reading the clock shows too little at is before the due instant, and not yet saturated. -/
theorem lt_due_of_units_lt (h : config.Valid) {target : ℕ} (htarget : target ≤ maxValue 64)
    {now wait : Duration} (hwait : (new config).waitUntil target now = some wait)
    (hlate : (new config).units now < target) :
    now.asNanos < (new config).clock.due target ∧ durationNanos now = now.asNanos := by
  obtain ⟨hdue, -⟩ := waitUntil_spec hwait
  have hnanos := durationNanos_eq now
  rw [← not_le, le_units_iff h htarget] at hlate
  omega

/-- A wait for what is not there yet ends at most a millisecond past the due instant. -/
theorem waitUntil_lt (h : config.Valid) {target : ℕ} (htarget : target ≤ maxValue 64)
    {now wait : Duration} (hwait : (new config).waitUntil target now = some wait)
    (hlate : (new config).units now < target) :
    NANOS_PER_MILLI ≤ wait.asNanos ∧
      now.asNanos + wait.asNanos < (new config).clock.due target + NANOS_PER_MILLI := by
  obtain ⟨hnow, hnanos⟩ := lt_due_of_units_lt h htarget hwait hlate
  obtain ⟨-, hround⟩ := waitUntil_spec hwait
  have hlt : wait.asNanos < (new config).clock.due target - durationNanos now + NANOS_PER_MILLI :=
    hround ▸ Scale.ceilDiv_mul_lt (by decide)
  have hle : (new config).clock.due target - durationNanos now ≤ wait.asNanos :=
    hround ▸ Scale.le_ceilDiv_mul (by decide)
  refine ⟨?_, by omega⟩
  -- a wait is a whole number of milliseconds, and not zero
  apply Nat.le_of_dvd (by omega)
  rw [hround]
  exact Nat.dvd_mul_left _ _

/-- A wait that needs no rounding ends at the first reading the clock shows the target at. -/
theorem read_lt_of_waitUntil (h : config.Valid) {target : ℕ} (htarget : target ≤ maxValue 64)
    {now wait : Duration} (hwait : (new config).waitUntil target now = some wait)
    (hlate : (new config).units now < target)
    (hround : NANOS_PER_MILLI ∣ (new config).clock.due target - durationNanos now) :
    0 < now.asNanos + wait.asNanos ∧
      (new config).clock.read (now.asNanos + wait.asNanos - 1) < target := by
  have hpos := (rateBounds h).pos
  obtain ⟨hdue, hwaitNanos⟩ := waitUntil_spec hwait
  -- rounding a multiple of a millisecond up to the millisecond changes nothing
  have hwaitEq : wait.asNanos = (new config).clock.due target - durationNanos now := by
    obtain ⟨k, hk⟩ := hround
    rw [hwaitNanos, hk, Nat.mul_comm NANOS_PER_MILLI k, Nat.ceilDiv_eq_add_pred_div,
      Nat.add_sub_assoc (by decide), Nat.add_comm, Nat.add_mul_div_right _ _ (by decide),
      Nat.div_eq_of_lt (by decide), Nat.zero_add]
  have hnanos := durationNanos_eq now
  rw [← not_le, le_units_iff h htarget] at hlate
  have hend : now.asNanos + wait.asNanos = (new config).clock.due target := by omega
  refine ⟨by omega, ?_⟩
  rw [← not_le, Clock.le_read_iff _ hpos htarget, le_min_iff, hend]
  omega

end Valid

end Core

end BetterBucket

import BetterBucket.Arithmetic.Clock
import BetterBucket.Engine.Bucket

/-!
# How fast the clock runs, and how long

Below a token a nanosecond the clock is meant to run below a unit a nanosecond and to last 438
years; otherwise at most at 4.3 units and 100 years.  Cutting a wide period can lift a rate just
below a unit to the unit itself.
-/

namespace BetterBucket.Core

open MachineWords ScaledClock

def NANOS_PER_YEAR : ℕ := 365 * 86400 * NANOS_PER_SEC

/-- The clock is slower than a unit a nanosecond where it is meant to be, at most at 4.3 elsewhere,
lasts for its range, and its rate is no less than exact. -/
structure SpeedAndRange (config : BucketConfig) : Prop where
  slow : config.refillAmount < config.refillPeriod.asNanos → (new config).rateInt = 0 ∧
    ∀ t : Duration, t.asNanos ≤ 438 * NANOS_PER_YEAR → (new config).units t < maxValue 64
  fast : config.refillPeriod.asNanos ≤ config.refillAmount →
    (new config).rate ≤ ⌈(43 / 10 : ℚ) * 2 ^ 64⌉₊ ∧
    ∀ t : Duration, t.asNanos ≤ 100 * NANOS_PER_YEAR → (new config).units t < maxValue 64
  positive : 0 < (new config).rate
  exact_le : (config.refillAmount : ℚ) * 2 ^ ((new config).unitShift + 64) /
    config.refillPeriod.asNanos ≤ (new config).rate

/-- The period is wider than 64 bits, and its 64 leading bits are the amount in units the capacity
allows. -/
def PeriodMeets (config : BucketConfig) : Prop :=
  ∃ j : ℕ, config.refillAmount * 2 ^ j = Scale.cutPeriod config.refillPeriod.asNanos ∧
    Scale.cutPeriod config.refillPeriod.asNanos < config.refillPeriod.asNanos ∧
    config.capacity * 2 ^ j < 2 ^ 61

variable {config : BucketConfig}

/-- A clock at a bounded rate has not stopped before the bound has. -/
theorem units_lt_max (h : config.Valid) {bound ticks : ℕ} (hrate : (new config).rate ≤ bound)
    (hrange : ORIGIN + scaled 64 bound ticks < maxValue 64) {t : Duration} (ht : t.asNanos ≤ ticks) :
    (new config).units t < maxValue 64 := by
  have hscaled : scaled 64 (new config).rate (min t.asNanos (maxValue 64)) ≤ scaled 64 bound ticks :=
    Nat.div_le_div_right (Nat.mul_le_mul ((min_le_left _ _).trans ht) hrate)
  rw [units_eq h]
  simp only [Clock.read, clock]
  omega

theorem rateInt_eq_zero_iff (h : config.Valid) :
    (new config).rateInt = 0 ↔ (new config).rate < 2 ^ 64 := by
  have hfrac := (new_scale h).2.1
  rw [rate_eq hfrac]
  omega

section Slow

variable (h : config.Valid) (hslow : config.refillAmount < config.refillPeriod.asNanos)

include h hslow

/-- Below a token a nanosecond a unit is at most a token, and a nanosecond's refill below a unit. -/
theorem slow_shift : ∃ j : ℕ, (new config).unitShift = j ∧ j ≤ 60 ∧
    config.refillAmount * 2 ^ j < config.refillPeriod.asNanos := by
  have hunit := unitChoice h
  obtain ⟨j, hj⟩ := Int.eq_ofNat_of_zero_le (hunit.nonneg_iff.mpr (by omega))
  have hhigh := hunit.high
  refine ⟨j, hj, by omega, ?_⟩
  rcases hunit.speed with hlt | ⟨hfast, -⟩
  · rw [hj, zpow_natCast] at hlt
    exact_mod_cast hlt
  · omega

/-- The whole part of the rate is zero but for the periods that meet the amount. -/
theorem rateInt_iff : (new config).rateInt = 0 ↔ ¬ PeriodMeets config := by
  obtain ⟨hcap, hamount, hperiod⟩ := config.valid_iff.mp h
  obtain ⟨j, hj, hhigh, hlt⟩ := slow_shift h hslow
  have hburst := (unitChoice h).burst_lt
  rw [hj, zpow_natCast] at hburst
  have hburstNat : config.capacity * 2 ^ j < 2 ^ 61 := by exact_mod_cast hburst
  rw [rateInt_eq_zero_iff h, (new_scale h).2.2, hj,
    Scale.deriveRate_lt_iff config.refillAmount_lt hperiod (refillPeriod_lt config) hhigh hlt]
  constructor
  · rintro hbelow ⟨i, hmeets, hcut, hfits⟩
    -- the unit of such a period is admissible, and the derived one is no coarser
    have hadmissible : Scale.Admissible config.capacity config.refillAmount
        config.refillPeriod.asNanos i := by
      refine ⟨?_, .inl ?_⟩
      · rw [zpow_natCast]
        exact_mod_cast hfits
      · rw [zpow_natCast]
        exact_mod_cast hmeets.trans_lt hcut
    have hgreatest := (Scale.deriveShift_isGreatest hcap config.capacity_lt hamount
      config.refillAmount_lt hperiod (refillPeriod_lt config)).2 hadmissible
    rw [← (new_scale h).1, hj] at hgreatest
    have hpow : 2 ^ i ≤ 2 ^ j := Nat.pow_le_pow_right (by omega) (by omega)
    have hle := Nat.mul_le_mul_left config.refillAmount hpow
    omega
  · intro hnot
    -- at a unit a nanosecond the product has passed the cut period but not the period
    by_contra hge
    have hmeets := Scale.eq_cutPeriod_of_le config.refillAmount_lt hperiod (refillPeriod_lt config)
      (not_lt.mp hge) hlt
    exact hnot ⟨j, hmeets, by omega, hburstNat⟩

/-- Even there the clock lasts: it runs at a unit a nanosecond and two `2^64`ths at most. -/
theorem slow_range {t : Duration} (ht : t.asNanos ≤ 438 * NANOS_PER_YEAR) :
    (new config).units t < maxValue 64 := by
  obtain ⟨j, hj, -, hlt⟩ := slow_shift h hslow
  have hpos : (0 : ℚ) < config.refillPeriod.asNanos := by
    exact_mod_cast (config.valid_iff.mp h).2.2
  have hltQ : (config.refillAmount : ℚ) * 2 ^ (new config).unitShift < config.refillPeriod.asNanos := by
    rw [hj, zpow_natCast]
    exact_mod_cast hlt
  have hupper := (rateBounds h).upper
  have hrate : ((new config).rate : ℚ) < (2 ^ 64 + 3 : ℕ) := by
    push_cast
    apply lt_of_mul_lt_mul_right _ hpos.le
    linarith
  exact units_lt_max h (Nat.le_of_lt_succ (Nat.cast_lt.mp hrate)) (by decide +kernel) ht

end Slow

section Fast

variable (h : config.Valid) (hfast : config.refillPeriod.asNanos ≤ config.refillAmount)

include h hfast

theorem fast_rate : (new config).rate ≤ ⌈(43 / 10 : ℚ) * 2 ^ 64⌉₊ := by
  have hpos : (0 : ℚ) < config.refillPeriod.asNanos := by
    exact_mod_cast (config.valid_iff.mp h).2.2
  have hnarrow : config.refillPeriod.asNanos < 2 ^ 64 := by
    have := config.refillAmount_lt
    omega
  have hspeed : 10 * (config.refillAmount : ℚ) * 2 ^ (new config).unitShift ≤
      43 * config.refillPeriod.asNanos := by
    rcases (unitChoice h).speed with hlt | ⟨-, -, hle⟩
    · linarith
    · exact hle
  have hupper := (rateBounds h).upper_narrow hnarrow
  have hrate : ((new config).rate : ℚ) < (⌈(43 / 10 : ℚ) * 2 ^ 64⌉₊ + 1 : ℕ) := by
    have hceil := Nat.le_ceil ((43 / 10 : ℚ) * 2 ^ 64)
    have hlt : ((new config).rate : ℚ) < 43 / 10 * 2 ^ 64 + 1 := by
      apply lt_of_mul_lt_mul_right _ hpos.le
      linarith
    push_cast
    linarith
  exact Nat.le_of_lt_succ (Nat.cast_lt.mp hrate)

theorem fast_range {t : Duration} (ht : t.asNanos ≤ 100 * NANOS_PER_YEAR) :
    (new config).units t < maxValue 64 := by
  have hbound : ⌈(43 / 10 : ℚ) * 2 ^ 64⌉₊ ≤ 43 * 2 ^ 64 / 10 + 1 := by
    rw [Nat.ceil_le]
    norm_num
  exact units_lt_max h ((fast_rate h hfast).trans hbound) (by decide +kernel) ht

end Fast

/-- The clock has its speed and its range, exactly when the period does not meet the amount. -/
theorem speedAndRange_iff (h : config.Valid) : SpeedAndRange config ↔ ¬ PeriodMeets config := by
  have hpos : (0 : ℚ) < config.refillPeriod.asNanos := by
    exact_mod_cast (config.valid_iff.mp h).2.2
  constructor
  · rintro hspeed hmeets
    -- such a period is longer than the amount, so its clock was to be slow
    obtain ⟨j, heq, hcut, -⟩ := id hmeets
    have hslow : config.refillAmount < config.refillPeriod.asNanos :=
      lt_of_le_of_lt (Nat.le_mul_of_pos_right _ (by positivity)) (heq.trans_lt hcut)
    exact (rateInt_iff h hslow).mp (hspeed.slow hslow).1 hmeets
  · intro hnot
    constructor
    case slow => exact fun hslow => ⟨(rateInt_iff h hslow).mpr hnot, fun t => slow_range h hslow⟩
    case fast => exact fun hfast => ⟨fast_rate h hfast, fun t => fast_range h hfast⟩
    case positive => exact (rateBounds h).pos
    case exact_le =>
      rw [zpow_add₀ (by norm_num), ← mul_assoc, div_le_iff₀ hpos]
      exact (rateBounds h).lower

/-- A second has nothing to cut. -/
theorem speedAndRange_iff_perSecond : SpeedAndRange (Bucket.perSecond 10) := by
  apply (speedAndRange_iff (Bucket.perSecond_valid (by decide))).mpr
  rintro ⟨j, -, hcut, -⟩
  exact absurd hcut (by decide +kernel)

/-- 31 tokens every 1132 years: a unit is `2^-60` tokens, and the period `31 · 2^60 + 1`
nanoseconds. -/
def meeting : BucketConfig := .raw 1 31 (.saturating (31 * 2 ^ 60 + 1)) 1

/-- The last bit of the period is cut, and the clock runs at a whole unit a nanosecond. -/
theorem meeting_unitANano :
    meeting.Valid ∧ meeting.refillAmount < meeting.refillPeriod.asNanos ∧
      (new meeting).rateInt = 1 ∧ ¬ SpeedAndRange meeting := by
  have hslow : meeting.refillAmount < meeting.refillPeriod.asNanos := by decide +kernel
  have hrate : (new meeting).rateInt = 1 := by decide +kernel
  refine ⟨⟨1, 31, .saturating (31 * 2 ^ 60 + 1), 1, by decide +kernel⟩, hslow, hrate, fun hspeed => ?_⟩
  have hzero := (hspeed.slow hslow).1
  omega

end BetterBucket.Core

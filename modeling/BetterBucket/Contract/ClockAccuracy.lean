import BetterBucket.Arithmetic.Slack
import BetterBucket.Engine.Bucket

/-!
# How close the clock is to exact

The clock is never behind by a unit.  Rounding the rate up puts it ahead by less than one; cutting
a wide period adds to that, and late in the range of the clock the two together can pass a unit.
-/

namespace BetterBucket.Core

open MachineWords ScaledClock

/-- Units due at a reading, exactly. -/
def unitsDue (config : BucketConfig) (t : Duration) : ℚ :=
  t.asNanos * config.refillAmount * 2 ^ (new config).unitShift / config.refillPeriod.asNanos

/-- Less than a unit from exact, and no whole unit missed at the instant it is due. -/
structure Accurate (config : BucketConfig) (t : Duration) : Prop where
  not_behind : unitsDue config t - 1 < (new config).units t - (ORIGIN : ℚ)
  not_missed : ∀ k : ℕ, unitsDue config t = k → ORIGIN + k ≤ (new config).units t
  not_ahead : (new config).units t - (ORIGIN : ℚ) < unitsDue config t + 1

/-- Units gained by dividing by the cut period instead of the period. -/
def cutGain (config : BucketConfig) (t : Duration) : ℚ :=
  let cut := Scale.cutPeriod config.refillPeriod.asNanos
  unitsDue config t * (config.refillPeriod.asNanos - cut) / cut

/-- Units gained by rounding that quotient up to a `2^64`th. -/
def ceilGain (config : BucketConfig) (t : Duration) : ℚ :=
  let cut := Scale.cutPeriod config.refillPeriod.asNanos
  t.asNanos * Int.fract (-(config.refillAmount * 2 ^ (new config).unitShift * 2 ^ 64 / cut : ℚ)) / 2 ^ 64

/-- What the two roundings gain does not reach the second whole unit after the exact time. -/
def GainsFit (config : BucketConfig) (t : Duration) : Prop :=
  cutGain config t + ceilGain config t < ⌈unitsDue config t⌉ + 1 - unitsDue config t

variable {config : BucketConfig} {t : Duration}

theorem unitsDue_eq (config : BucketConfig) (t : Duration) :
    unitsDue config t = t.asNanos * flow config := by
  unfold unitsDue flow
  ring

/-- Up to its end the clock shows the reading times the rate, rounded down. -/
theorem units_eq_scaled (h : config.Valid) (ht : t.asNanos < 2 ^ 64)
    (hmax : (new config).units t < maxValue 64) :
    (new config).units t = ORIGIN + scaled 64 (new config).rate t.asNanos := by
  have hticks : min t.asNanos (maxValue 64) = t.asNanos :=
    min_eq_left ((lt_two_pow_iff_le_maxValue 64 _).mp ht)
  rw [units_eq h] at hmax ⊢
  simp only [Clock.read, clock, hticks] at hmax ⊢
  omega

theorem natCeil_eq_add_fract {r : ℚ} (hr : 0 ≤ r) : (⌈r⌉₊ : ℚ) = r + Int.fract (-r) := by
  rw [natCast_ceil_eq_intCast_ceil hr, Int.fract, Int.floor_neg]
  push_cast
  ring

/-- The clock's gain on the exact one is made up of the two roundings. -/
theorem ticks_mul_speed_eq (h : config.Valid) (t : Duration) :
    t.asNanos * speed 64 (new config).rate =
      unitsDue config t + (cutGain config t + ceilGain config t) := by
  obtain ⟨-, -, hperiod⟩ := config.valid_iff.mp h
  have hpos := refillPeriod_pos h
  have hcut : (0 : ℚ) < Scale.cutPeriod config.refillPeriod.asNanos := by
    exact_mod_cast Scale.cutPeriod_pos hperiod (refillPeriod_lt config)
  have hunit := unitChoice h
  have hrate := (new_scale h).2.2
  rw [Scale.deriveRate_eq_ceil config.refillAmount_lt hperiod (refillPeriod_lt config) hunit.low
    hunit.high hunit.speed] at hrate
  rw [speed, hrate, natCeil_eq_add_fract (by positivity), cutGain, ceilGain, unitsDue]
  field_simp
  ring

theorem gainsFit_iff (h : config.Valid) :
    GainsFit config t ↔ t.asNanos * speed 64 (new config).rate < ⌈unitsDue config t⌉ + 1 := by
  rw [ticks_mul_speed_eq h, GainsFit, lt_sub_iff_add_lt, add_comm]

/-- Nothing is gained by cutting a period of at most 64 significant bits. -/
theorem gainsFit_of_uncut (ht : t.asNanos < 2 ^ 64)
    (huncut : Scale.cutPeriod config.refillPeriod.asNanos = config.refillPeriod.asNanos) :
    GainsFit config t := by
  have hticks : (t.asNanos : ℚ) < 2 ^ 64 := by exact_mod_cast ht
  have hcut : cutGain config t = 0 := by
    rw [cutGain, huncut, sub_self, mul_zero, zero_div]
  have hceil : ceilGain config t < 1 := by
    rw [ceilGain, div_lt_one (by positivity)]
    calc (t.asNanos : ℚ) * Int.fract _ ≤ t.asNanos * 1 :=
          mul_le_mul_of_nonneg_left (Int.fract_lt_one _).le (by positivity)
      _ < 2 ^ 64 := by linarith
  have hnext := Int.le_ceil (unitsDue config t)
  unfold GainsFit
  linarith

/-- In the first third of its readings, 194 years, no clock gains a unit. -/
theorem gainsFit_of_early (h : config.Valid) (ht : 3 * t.asNanos < 2 ^ 64) : GainsFit config t := by
  by_cases huncut : Scale.cutPeriod config.refillPeriod.asNanos = config.refillPeriod.asNanos
  · exact gainsFit_of_uncut (by omega) huncut
  have hticks : 3 * (t.asNanos : ℚ) < 2 ^ 64 := by exact_mod_cast ht
  -- only a wide period is cut, and over a wide period the clock is below a unit a nanosecond
  have hflow : flow config ≤ 1 := by
    rw [flow, div_le_one (refillPeriod_pos h)]
    rcases (unitChoice h).speed with hlt | ⟨hfast, -, -⟩
    · exact hlt.le
    · have hamount := config.refillAmount_lt
      exact absurd (Scale.cutPeriod_of_lt (by omega)) huncut
  have hdue : unitsDue config t ≤ t.asNanos := by
    rw [unitsDue_eq]
    exact mul_le_of_le_one_right (Nat.cast_nonneg _) hflow
  have hgain := mul_le_mul_of_nonneg_left (speed_lt h).le (Nat.cast_nonneg t.asNanos)
  -- three `2^64`ths of the reading at most
  have hsum : (t.asNanos : ℚ) * (flow config * (1 + 2 / 2 ^ 64) + 1 / 2 ^ 64) =
      unitsDue config t + (2 * unitsDue config t + t.asNanos) / 2 ^ 64 := by
    rw [unitsDue_eq]
    ring
  have hnext := Int.le_ceil (unitsDue config t)
  rw [gainsFit_iff h]
  linarith

/-- The clock is never a unit behind, and less than a unit ahead exactly when its gains fit. -/
theorem accurate_iff (h : config.Valid) (ht : t.asNanos < 2 ^ 64)
    (hmax : (new config).units t < maxValue 64) : Accurate config t ↔ GainsFit config t := by
  have hunits := units_eq_scaled h ht hmax
  have hshown : (new config).units t - (ORIGIN : ℚ) = scaled 64 (new config).rate t.asNanos := by
    rw [hunits]
    push_cast
    ring
  have hbehind : unitsDue config t < scaled 64 (new config).rate t.asNanos + 1 := by
    rw [unitsDue_eq]
    exact lt_of_le_of_lt (mul_le_mul_of_nonneg_left (flow_le_speed h) (Nat.cast_nonneg _))
      (mul_speed_lt_scaled_add_one 64 _ _)
  -- the clock never shows less than the exact reading rounded down, so one side decides
  rw [gainsFit_iff h, ← scaled_lt_add_one_iff, ← hshown]
  constructor
  · exact Accurate.not_ahead
  · intro hahead
    refine ⟨by rw [hshown]; linarith, fun k hk => ?_, hahead⟩
    rw [hk] at hbehind
    have hdue : k < scaled 64 (new config).rate t.asNanos + 1 := by exact_mod_cast hbehind
    omega

/-- A period of 93 bits, of which 29 ones are cut. -/
def cutBy29 : BucketConfig := .raw 1 (2 ^ 32 - 1) (.saturating (2 ^ 92 + 2 ^ 29 - 1)) 1

theorem cutBy29_valid : cutBy29.Valid :=
  ⟨1, 2 ^ 32 - 1, .saturating (2 ^ 92 + 2 ^ 29 - 1), 1, by decide +kernel⟩

/-- Five days in its gains still fit. -/
theorem accurate_iff_fiveDays : Accurate cutBy29 (.fromSecs 432000) :=
  (accurate_iff cutBy29_valid (by decide +kernel) (by decide +kernel)).mpr
    (gainsFit_of_early cutBy29_valid (by decide +kernel))

/-- After 438 years it is more than a unit ahead. -/
theorem cutBy29_ahead :
    cutBy29.Valid ∧ (Duration.saturating (3 * 2 ^ 62)).asNanos < 2 ^ 64 ∧
      (new cutBy29).units (.saturating (3 * 2 ^ 62)) < maxValue 64 ∧
      unitsDue cutBy29 (.saturating (3 * 2 ^ 62)) + 1 <
        (new cutBy29).units (.saturating (3 * 2 ^ 62)) - (ORIGIN : ℚ) := by
  refine ⟨cutBy29_valid, by decide +kernel, by decide +kernel, ?_⟩
  have hshift : (new cutBy29).unitShift = 60 := by decide +kernel
  have hticks : (Duration.saturating (3 * 2 ^ 62)).asNanos = 3 * 2 ^ 62 := by decide +kernel
  have hamount : cutBy29.refillAmount = 2 ^ 32 - 1 := by decide +kernel
  have hperiod : cutBy29.refillPeriod.asNanos = 2 ^ 92 + 2 ^ 29 - 1 := by decide +kernel
  have hunits : (new cutBy29).units (.saturating (3 * 2 ^ 62)) = ORIGIN + (3 * 2 ^ 62 - 3 * 2 ^ 30) := by
    decide +kernel
  rw [unitsDue, hshift, hticks, hamount, hperiod, hunits]
  norm_num

end BetterBucket.Core

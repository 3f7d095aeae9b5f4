import BetterBucket.Arithmetic.Tokens

/-!
# From units back to tokens

The clock runs at most a hair above `flow` units a nanosecond, rounds down, and in the fastest
regime costs are rounded up.  Together these never amount to more than four nanoseconds of refill
and `resolution` tokens; the argument differs with the size of a unit (`tokens_le_of_units_lt`).
-/

namespace BetterBucket

open MachineWords ScaledClock

/-- Tokens the configured rate accrues over `nanos` nanoseconds, exactly. -/
def BucketConfig.accrued (config : BucketConfig) (nanos : ℚ) : ℚ :=
  config.refillAmount * nanos / config.refillPeriod.asNanos

def resolution : ℚ := 1 / 2 ^ 28

theorem resolution_nonneg : 0 ≤ resolution := by norm_num [resolution]

theorem BucketConfig.accrued_nonneg (config : BucketConfig) {nanos : ℚ} (h : 0 ≤ nanos) :
    0 ≤ config.accrued nanos := by
  unfold BucketConfig.accrued
  positivity

/-- The allowance of a window is never negative. -/
theorem BucketConfig.allowance_nonneg (config : BucketConfig) {a b : ℕ} (hab : a ≤ b) :
    0 ≤ config.capacity + config.accrued ((b : ℚ) - a + 4) + resolution := by
  have habQ : (a : ℚ) ≤ b := by exact_mod_cast hab
  have haccrued := config.accrued_nonneg (by linarith : 0 ≤ (b : ℚ) - a + 4)
  have hresolution := resolution_nonneg
  positivity

theorem BucketConfig.accrued_add (config : BucketConfig) (a b : ℚ) :
    config.accrued (a + b) = config.accrued a + config.accrued b := by
  unfold BucketConfig.accrued
  ring

theorem BucketConfig.accrued_mono (config : BucketConfig) {a b : ℚ} (hab : a ≤ b) :
    config.accrued a ≤ config.accrued b := by
  unfold BucketConfig.accrued
  gcongr

namespace Core

/-- The exact units a nanosecond that the clock's rate approximates from above. -/
def flow (config : BucketConfig) : ℚ :=
  config.refillAmount * 2 ^ (new config).unitShift / config.refillPeriod.asNanos

variable {config : BucketConfig}

theorem refillPeriod_pos (h : config.Valid) : (0 : ℚ) < config.refillPeriod.asNanos := by
  have := (config.valid_iff.mp h).2.2
  exact_mod_cast this

theorem flow_nonneg (config : BucketConfig) : 0 ≤ flow config := by
  unfold flow
  positivity

theorem accrued_mul_unit (config : BucketConfig) (nanos : ℚ) :
    config.accrued nanos * 2 ^ (new config).unitShift = flow config * nanos := by
  unfold BucketConfig.accrued flow
  ring

/-- The rate is never below exact. -/
theorem flow_le_speed (h : config.Valid) : flow config ≤ speed 64 (new config).rate := by
  have hlower := (rateBounds h).lower
  rw [flow, speed, div_le_div_iff₀ (refillPeriod_pos h) (by positivity)]
  exact hlower

theorem speed_lt (h : config.Valid) :
    speed 64 (new config).rate < flow config * (1 + 2 / 2 ^ 64) + 1 / 2 ^ 64 := by
  have hpos := refillPeriod_pos h
  have hupper := (rateBounds h).upper
  rw [← lt_div_iff₀ hpos] at hupper
  unfold speed flow
  rw [div_lt_iff₀ (by positivity)]
  apply hupper.trans_eq
  field_simp

theorem speed_lt_of_narrow (h : config.Valid) (hnarrow : config.refillPeriod.asNanos < 2 ^ 64) :
    speed 64 (new config).rate < flow config + 1 / 2 ^ 64 := by
  have hpos := refillPeriod_pos h
  have hupper := (rateBounds h).upper_narrow hnarrow
  rw [← lt_div_iff₀ hpos] at hupper
  unfold speed flow
  rw [div_lt_iff₀ (by positivity)]
  apply hupper.trans_eq
  field_simp

/-- Over `ticks` the clock gains on the exact one by two nanoseconds and one unit at most. -/
theorem ticks_mul_speed_le (h : config.Valid) {ticks : ℚ} (hpos : 0 ≤ ticks) (hle : ticks ≤ 2 ^ 64) :
    ticks * speed 64 (new config).rate ≤ flow config * (ticks + 2) + 1 := by
  have hflow := flow_nonneg config
  have hspeed := mul_le_mul_of_nonneg_left (speed_lt h).le hpos
  have hgain := mul_le_mul_of_nonneg_right hle (by positivity : 0 ≤ flow config * (2 / 2 ^ 64) + 1 / 2 ^ 64)
  linarith

theorem ticks_mul_speed_le_of_narrow (h : config.Valid)
    (hnarrow : config.refillPeriod.asNanos < 2 ^ 64) {ticks : ℚ} (hpos : 0 ≤ ticks)
    (hle : ticks ≤ 2 ^ 64) : ticks * speed 64 (new config).rate ≤ flow config * ticks + 1 := by
  have hspeed := mul_le_mul_of_nonneg_left (speed_lt_of_narrow h hnarrow).le hpos
  linarith

/-- A clock slower than half a unit a nanosecond means a unit below `resolution`. -/
theorem shift_or_flow (h : config.Valid) (hs : 0 ≤ (new config).unitShift) :
    29 ≤ (new config).unitShift ∨
      (new config).unitShift < 29 ∧ config.refillPeriod.asNanos < 2 ^ 64 ∧ 1 / 2 ≤ flow config := by
  rcases (unitChoice h).fine hs with hfine | hfine
  · exact .inl hfine
  rcases le_or_gt 29 (new config).unitShift with hge | hlt
  · exact .inl hge
  right
  have hpos := refillPeriod_pos h
  have hamount : (config.refillAmount : ℚ) ≤ 2 ^ 32 := by exact_mod_cast config.refillAmount_lt.le
  have hunit : (2 : ℚ) ^ (new config).unitShift ≤ 2 ^ (28 : ℤ) :=
    zpow_le_zpow_right₀ (by norm_num) (by omega)
  have hperiod : (config.refillPeriod.asNanos : ℚ) < 2 ^ 64 := by
    calc (config.refillPeriod.asNanos : ℚ) ≤ 2 * (config.refillAmount * 2 ^ (new config).unitShift) := hfine
      _ ≤ 2 * (2 ^ 32 * 2 ^ (28 : ℤ)) := by gcongr
      _ < 2 ^ 64 := by norm_num
  refine ⟨hlt, by exact_mod_cast hperiod, ?_⟩
  rw [flow, le_div_iff₀ hpos]
  linarith

theorem flow_of_multi (h : config.Valid) (hs : (new config).unitShift < 0) :
    config.refillPeriod.asNanos < 2 ^ 64 ∧ 43 / 20 < flow config := by
  have hpos := refillPeriod_pos h
  have hcoarse := (unitChoice h).coarse hs
  have hamount : (config.refillAmount : ℚ) ≤ 2 ^ 32 := by exact_mod_cast config.refillAmount_lt.le
  have hunit : (2 : ℚ) ^ (new config).unitShift ≤ 1 := zpow_le_one_of_nonpos₀ (by norm_num) hs.le
  have hperiod : (config.refillPeriod.asNanos : ℚ) < 2 ^ 64 := by
    have : (config.refillAmount : ℚ) * 2 ^ (new config).unitShift ≤ 2 ^ 32 * 1 := by gcongr
    linarith
  refine ⟨by exact_mod_cast hperiod, ?_⟩
  rw [flow, lt_div_iff₀ hpos]
  linarith

/-- Tokens whose exact price is below the cost of `k` tokens, the clock's gain over `ticks` and
`rest ≤ 1` unit. -/
theorem tokens_le_of_units_lt (h : config.Valid) {k : ℕ} (hk : k ≤ config.capacity)
    {tokens ticks rest : ℚ} (hticks : 0 ≤ ticks) (hticksLe : ticks ≤ 2 ^ 64) (hrest : 0 ≤ rest)
    (hrestLe : rest ≤ 1)
    (hunits : tokens * 2 ^ (new config).unitShift <
      (new config).cost k + ticks * speed 64 (new config).rate + rest) :
    tokens ≤ k + config.accrued (ticks + 3 + rest) + resolution := by
  have hunit : (0 : ℚ) < 2 ^ (new config).unitShift := by positivity
  have hflow := flow_nonneg config
  refine le_of_mul_le_mul_right ?_ hunit
  rw [add_mul, add_mul, accrued_mul_unit]
  have hresolution : 0 ≤ resolution * 2 ^ (new config).unitShift :=
    mul_nonneg resolution_nonneg hunit.le
  rcases le_or_gt 0 (new config).unitShift with hs | hs
  · rw [cost_exact h hs hk, Nat.cast_mul, ← zpow_of_exact hs] at hunits
    rcases shift_or_flow h hs with hlarge | ⟨-, hnarrow, hhalf⟩
    · -- two units are among the resolution
      have htwo : 2 ≤ resolution * 2 ^ (new config).unitShift := by
        have hpow : (2 : ℚ) ^ (29 : ℤ) ≤ 2 ^ (new config).unitShift :=
          zpow_le_zpow_right₀ (by norm_num) hlarge
        have hnum : (2 : ℚ) ^ (29 : ℤ) = 2 ^ 29 := by norm_num
        unfold resolution
        linarith
      have hgain := ticks_mul_speed_le h hticks hticksLe
      have hflowRest := mul_nonneg hflow hrest
      linarith
    · -- two units are at most four nanoseconds of refill
      have hgain := ticks_mul_speed_le_of_narrow h hnarrow hticks hticksLe
      have hflowRest := mul_le_mul_of_nonneg_right hhalf (by linarith : (0 : ℚ) ≤ 3 + rest)
      linarith
  · -- the rounded-up cost is a unit, which the fast clock covers in half a nanosecond
    obtain ⟨hnarrow, hfast⟩ := flow_of_multi h hs
    have hround := cost_lt_of_multi h hs k
    have hgain := ticks_mul_speed_le_of_narrow h hnarrow hticks hticksLe
    have hflowRest := mul_le_mul_of_nonneg_right hfast.le (by linarith : (0 : ℚ) ≤ 3 + rest)
    linarith

/-- What the clock gains between two readings, in ticks it really counted. -/
theorem read_gap (self : Core) (a b : ℕ) :
    ∃ ticks : ℚ, 0 ≤ ticks ∧ ticks + 1 ≤ 2 ^ 64 ∧ ticks ≤ max 0 ((b : ℚ) - a) ∧
      (self.clock.read b : ℚ) - self.clock.read a < ticks * speed 64 self.rate + 1 := by
  rcases le_total a b with hab | hba
  · have hgap := self.clock.read_sub_lt hab
    have hmono : min a self.clock.horizon ≤ min b self.clock.horizon := min_le_min_right _ hab
    have hcap : min b self.clock.horizon ≤ maxValue 64 := min_le_right _ _
    refine ⟨_, ?_, ?_, ?_, hgap⟩
    · rw [sub_nonneg]
      exact_mod_cast hmono
    · have : min b self.clock.horizon - min a self.clock.horizon + 1 ≤ 2 ^ 64 := by
        unfold maxValue at hcap
        omega
      rw [← Nat.cast_sub hmono]
      exact_mod_cast this
    · apply le_max_of_le_right
      have : min b self.clock.horizon - min a self.clock.horizon ≤ b - a := by omega
      rw [← Nat.cast_sub hmono, ← Nat.cast_sub hab]
      exact_mod_cast this
  · -- backwards: no ticks, and the clock shows no more than before
    have hread : self.clock.read b ≤ self.clock.read a := self.clock.read_mono hba
    have hreadQ : (self.clock.read b : ℚ) ≤ self.clock.read a := by exact_mod_cast hread
    exact ⟨0, le_rfl, by norm_num, le_max_left _ _, by linarith⟩

/-- Tokens paid for by the cost of `k` tokens and the clock's gain from reading `a` to `b`. -/
theorem tokens_le_of_read (h : config.Valid) {k : ℕ} (hk : k ≤ config.capacity) {tokens : ℚ}
    {a b : ℕ} (hunits : tokens * 2 ^ (new config).unitShift ≤
      (new config).cost k + ((new config).clock.read b - (new config).clock.read a)) :
    tokens ≤ k + config.accrued (max 0 ((b : ℚ) - a) + 4) + resolution := by
  obtain ⟨ticks, hpos, hle, hspan, hgap⟩ := (new config).read_gap a b
  have htokens := tokens_le_of_units_lt h hk hpos (by linarith) zero_le_one le_rfl
    (by linarith : tokens * 2 ^ (new config).unitShift <
      (new config).cost k + ticks * speed 64 (new config).rate + 1)
  have hmono : config.accrued (ticks + 3 + 1) ≤ config.accrued (max 0 ((b : ℚ) - a) + 4) :=
    config.accrued_mono (by linarith)
  linarith

end Core

end BetterBucket

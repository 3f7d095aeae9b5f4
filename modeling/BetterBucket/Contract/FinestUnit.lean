import BetterBucket.Arithmetic.Clock

/-!
# The finest unit

`Scale.derive` searches downward from an estimate, starts over from zero for fast buckets and cuts
the result by the capacity; what it ends on is the finest unit there is.
-/

namespace BetterBucket.Scale

/-- Units a nanosecond of a clock that counts units of `2^-m` tokens. -/
def speedAt (amount periodNs : ℕ) (m : ℤ) : ℚ := amount * 2 ^ m / periodNs

section

variable {amount periodNs : ℕ} {m : ℤ}

/-- The unit of the clock alone is at most two nanoseconds of refill, and at least the `4.3`th part of
one. -/
theorem Regime.speedAt_bounds (hregime : Regime amount periodNs m) (hperiod : 0 < periodNs)
    (hm : 0 ≤ m) : 1 / 2 ≤ speedAt amount periodNs m ∧ speedAt amount periodNs m ≤ 43 / 10 := by
  have hperiodQ : (0 : ℚ) < periodNs := by exact_mod_cast hperiod
  rw [speedAt, le_div_iff₀ hperiodQ, div_le_iff₀ hperiodQ]
  cases hregime with
  | slow _ hlt hnext =>
    -- twice the speed would be a unit a nanosecond or more
    rw [zpow_add_one₀ (by norm_num), ← mul_assoc] at hnext
    constructor <;> linarith
  | whole hzero hfast hfit =>
    have hfastQ : (periodNs : ℚ) ≤ amount := by exact_mod_cast hfast
    have hfitQ : 10 * (amount : ℚ) ≤ 43 * periodNs := by exact_mod_cast hfit
    rw [hzero, zpow_zero, mul_one]
    constructor <;> linarith
  | multi hneg => omega

theorem UnitChoice.lt_speedAt {capacity : ℕ} (hunit : UnitChoice capacity amount periodNs m)
    (hperiod : 0 < periodNs) (hm : m < 0) : 43 / 20 < speedAt amount periodNs m := by
  have hperiodQ : (0 : ℚ) < periodNs := by exact_mod_cast hperiod
  have hcoarse := hunit.coarse hm
  rw [speedAt, lt_div_iff₀ hperiodQ]
  linarith

end

theorem derive_unitShift {capacity amount : U32} {period : Duration} (hcap : 0 < capacity.val)
    (hamount : 0 < amount.val) (hperiod : 0 < period.asNanos) :
    (derive capacity amount period).unitShift = deriveShift capacity amount period.asNanos :=
  have hvalid : (BucketConfig.raw capacity amount period 0).Valid :=
    (BucketConfig.valid_iff _).mpr ⟨hcap, hamount, hperiod⟩
  (Core.new_scale hvalid).1

/-- The unit is the finest that the capacity and the clock admit: at most a token exactly up to 4.3
tokens a nanosecond; and the clock, where it decides, runs at least at half its limit. -/
theorem finest_unit {capacity amount : U32} {period : Duration} (hcap : 0 < capacity.val)
    (hamount : 0 < amount.val) (hperiod : 0 < period.asNanos) :
    let m := (derive capacity amount period).unitShift
    IsGreatest {j : ℤ | (capacity.val : ℚ) * 2 ^ j < 2 ^ 61 ∧
      ((amount.val : ℚ) * 2 ^ j < period.asNanos ∨
        j ≤ 0 ∧ 10 * (amount.val : ℚ) * 2 ^ j ≤ 43 * period.asNanos)} m ∧
    ((2 : ℚ) ^ (-m) ≤ 1 ↔ 10 * amount.val ≤ 43 * period.asNanos) ∧
    (0 ≤ m → m = clockLimit amount period.asNanos →
      1 / 2 ≤ speedAt amount period.asNanos m ∧ speedAt amount period.asNanos m ≤ 43 / 10) ∧
    (m < 0 → 43 / 20 < speedAt amount period.asNanos m) := by
  intro m
  have hlt : period.asNanos < 2 ^ 94 := lt_of_lt_of_le period.asNanos_lt (by norm_num [NANOS_PER_SEC])
  have hm : m = deriveShift capacity amount period.asNanos := derive_unitShift hcap hamount hperiod
  have hunit := deriveShift_unitChoice hcap capacity.isLt hamount amount.isLt hperiod hlt
  have hgreatest := deriveShift_isGreatest hcap capacity.isLt hamount amount.isLt hperiod hlt
  have hregime := clockLimit_regime hamount amount.isLt hperiod hlt
  rw [← hm] at hunit hgreatest
  refine ⟨hgreatest, ?_, fun hnonneg hclock => ?_, hunit.lt_speedAt hperiod⟩
  · rw [← hunit.nonneg_iff, zpow_le_one_iff_right₀ (by norm_num)]
    omega
  · rw [← hclock] at hregime
    exact hregime.speedAt_bounds hperiod hnonneg

/-- Five tokens a nanosecond are counted in pairs: two and a half units a nanosecond. -/
theorem finest_unit_pairs :
    IsGreatest {j : ℤ | ((3 : U32).val : ℚ) * 2 ^ j < 2 ^ 61 ∧
      (((5 : U32).val : ℚ) * 2 ^ j < (Duration.saturating 1).asNanos ∨
        j ≤ 0 ∧ 10 * ((5 : U32).val : ℚ) * 2 ^ j ≤ 43 * (Duration.saturating 1).asNanos)} (-1) ∧
    43 / 20 < speedAt (5 : U32) (Duration.saturating 1).asNanos (-1) := by
  have hm : (derive (3 : U32) (5 : U32) (.saturating 1)).unitShift = -1 := by decide +kernel
  have hfinest := finest_unit (by decide : 0 < (3 : U32).val) (by decide : 0 < (5 : U32).val)
    (by decide : 0 < (Duration.saturating 1).asNanos)
  rw [hm] at hfinest
  exact ⟨hfinest.1, hfinest.2.2.2 (by decide)⟩

end BetterBucket.Scale

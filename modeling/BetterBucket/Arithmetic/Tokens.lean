import BetterBucket.Arithmetic.Clock

/-!
# Tokens and units

`cost` and `tokensIn` are a Galois pair in every regime (`cost_le_iff`).  Where a unit is at most
one token both are exact shifts; otherwise a cost is rounded up to whole units.
-/

namespace BetterBucket.Core

open MachineWords

/-- Units a token, or tokens a unit, whichever is whole. -/
def grain (self : Core) : ℕ := 2 ^ self.unitShift.natAbs

theorem grain_pos (self : Core) : 0 < self.grain := by
  unfold grain
  positivity

theorem cost_zero (self : Core) : self.cost 0 = 0 := by
  rw [cost]
  split
  · rw [shiftLeft, Nat.zero_shiftLeft, Nat.zero_mod]
  · rfl

variable {config : BucketConfig}

@[simp]
theorem new_capacity (config : BucketConfig) : (new config).capacity = config.capacity := rfl

theorem natAbs_unitShift_lt (h : config.Valid) : (new config).unitShift.natAbs < 64 := by
  have hlow := (unitChoice h).low
  have hhigh := (unitChoice h).high
  omega

section Exact

theorem zpow_of_exact (hs : 0 ≤ (new config).unitShift) :
    (2 : ℚ) ^ (new config).unitShift = (new config).grain := by
  obtain ⟨k, hk⟩ := Int.eq_ofNat_of_zero_le hs
  rw [grain, hk, Int.natAbs_natCast, zpow_natCast]
  norm_num

theorem capacity_mul_grain_lt (h : config.Valid) (hs : 0 ≤ (new config).unitShift) :
    config.capacity * (new config).grain < 2 ^ 61 := by
  have hburst := (unitChoice h).burst_lt
  rw [zpow_of_exact hs] at hburst
  exact_mod_cast hburst

theorem cost_exact (h : config.Valid) (hs : 0 ≤ (new config).unitShift) {n : ℕ}
    (hn : n ≤ config.capacity) : (new config).cost n = n * (new config).grain := by
  have hlt := capacity_mul_grain_lt h hs
  have hle : n * (new config).grain ≤ config.capacity * (new config).grain :=
    Nat.mul_le_mul_right _ hn
  have hfit : n * (new config).grain < 2 ^ 64 := by omega
  rw [cost, if_pos hs]
  exact shiftLeft_eq_mul (natAbs_unitShift_lt h) hfit

theorem burst_exact (h : config.Valid) (hs : 0 ≤ (new config).unitShift) :
    (new config).burst = config.capacity * (new config).grain := cost_exact h hs le_rfl

theorem tokensFor_exact (h : config.Valid) (hs : 0 ≤ (new config).unitShift) (credit : ℕ) :
    (new config).tokensFor credit = min (credit / (new config).grain) config.capacity := by
  have hcap := config.capacity_lt
  simp only [tokensFor, if_pos hs, new_capacity]
  rw [shiftRight_eq_div (natAbs_unitShift_lt h), tryFrom_getD_maxValue, min_assoc]
  congr 1
  unfold maxValue
  omega

theorem tokensIn_exact (h : config.Valid) (hs : 0 ≤ (new config).unitShift) (credit : ℕ) :
    (new config).tokensIn credit = min (credit / (new config).grain) config.capacity := by
  rw [tokensIn]
  split
  · -- the full bucket's special case agrees with the quotient
    rename_i hfull
    rw [burst_exact h hs, ge_iff_le, ← Nat.le_div_iff_mul_le (grain_pos _)] at hfull
    rw [min_eq_right hfull, new_capacity]
  · exact tokensFor_exact h hs credit

end Exact

section Multi

theorem zpow_of_multi (hs : (new config).unitShift < 0) :
    (2 : ℚ) ^ (new config).unitShift * (new config).grain = 1 := by
  obtain ⟨k, hk⟩ : ∃ k : ℕ, (new config).unitShift = -k := ⟨(new config).unitShift.natAbs, by omega⟩
  rw [grain, hk, Int.natAbs_neg, Int.natAbs_natCast, zpow_neg, zpow_natCast, Nat.cast_pow,
    Nat.cast_ofNat, inv_mul_cancel₀ (by positivity)]

theorem cost_multi (h : config.Valid) (hs : (new config).unitShift < 0) (n : ℕ) :
    (new config).cost n = n ⌈/⌉ (new config).grain := by
  have hgrain := grain_pos (new config)
  simp only [cost, if_neg (not_le.mpr hs)]
  rw [Nat.ceilDiv_eq_add_pred_div]
  split
  · rename_i hzero
    rw [hzero, Nat.zero_add, Nat.div_eq_of_lt (by omega)]
  · rename_i hpos
    rw [shiftRight_eq_div (natAbs_unitShift_lt h), ← Nat.add_div_right _ (by positivity)]
    show (n - 1 + (new config).grain) / (new config).grain = _
    congr 1
    omega

/-- Whole units have an exact price. -/
theorem cost_mul_grain_of_dvd (h : config.Valid) (hs : (new config).unitShift < 0) {n : ℕ}
    (hdvd : (new config).grain ∣ n) : (new config).cost n * (new config).grain = n := by
  have hgrain := grain_pos (new config)
  obtain ⟨k, rfl⟩ := hdvd
  rw [cost_multi h hs, Nat.mul_comm _ k, Nat.ceilDiv_eq_add_pred_div, Nat.add_sub_assoc (by omega),
    Nat.add_comm, Nat.add_mul_div_right _ _ hgrain, Nat.div_eq_of_lt (by omega), Nat.zero_add]

/-- Up to a unit's worth of tokens costs a unit. -/
theorem cost_eq_one (h : config.Valid) (hs : (new config).unitShift < 0) {n : ℕ} (hpos : 0 < n)
    (hn : n ≤ (new config).grain) : (new config).cost n = 1 := by
  have hle : n ⌈/⌉ (new config).grain ≤ 1 := by
    rwa [ceilDiv_le_iff_le_mul (grain_pos _), Nat.mul_one]
  have hlt : ¬ n ⌈/⌉ (new config).grain ≤ 0 := by
    rw [ceilDiv_le_iff_le_mul (grain_pos _), Nat.mul_zero]
    omega
  rw [cost_multi h hs]
  omega

theorem lt_burst_iff (h : config.Valid) (hs : (new config).unitShift < 0) (credit : ℕ) :
    credit < (new config).burst ↔ credit * (new config).grain < config.capacity := by
  rw [← not_le, ← not_le, burst, cost_multi h hs, ceilDiv_le_iff_le_mul (grain_pos _), Nat.mul_comm,
    new_capacity]

theorem tokensIn_multi (h : config.Valid) (hs : (new config).unitShift < 0) (credit : ℕ) :
    (new config).tokensIn credit = min (credit * (new config).grain) config.capacity := by
  have hcap := config.capacity_lt
  rw [tokensIn]
  split
  · rename_i hfull
    rw [min_eq_right (not_lt.mp (mt (lt_burst_iff h hs credit).mpr (not_lt.mpr hfull))), new_capacity]
  · rename_i hshort
    have hlt := (lt_burst_iff h hs credit).mp (not_le.mp hshort)
    have hfit : credit * (new config).grain < 2 ^ 64 := by omega
    have htokens : shiftLeft 64 credit (new config).unitShift.natAbs = credit * (new config).grain :=
      shiftLeft_eq_mul (natAbs_unitShift_lt h) hfit
    simp only [tokensFor, if_neg (not_le.mpr hs), htokens, new_capacity]
    rw [tryFrom_of_le (by unfold maxValue; omega), Option.getD_some]

end Multi

section Both

theorem tokensIn_le (h : config.Valid) (credit : ℕ) :
    (new config).tokensIn credit ≤ config.capacity := by
  rcases le_or_gt 0 (new config).unitShift with hs | hs
  · rw [tokensIn_exact h hs]
    exact min_le_right _ _
  · rw [tokensIn_multi h hs]
    exact min_le_right _ _

/-- `n` tokens are affordable exactly when they are among the tokens in the bucket. -/
theorem cost_le_iff (h : config.Valid) {n : ℕ} (hn : n ≤ config.capacity) (credit : ℕ) :
    (new config).cost n ≤ credit ↔ n ≤ (new config).tokensIn credit := by
  rcases le_or_gt 0 (new config).unitShift with hs | hs
  · rw [cost_exact h hs hn, tokensIn_exact h hs, le_min_iff, and_iff_left hn,
      Nat.le_div_iff_mul_le (grain_pos _)]
  · rw [cost_multi h hs, tokensIn_multi h hs, le_min_iff, and_iff_left hn,
      ceilDiv_le_iff_le_mul (grain_pos _), Nat.mul_comm]

theorem cost_mono (h : config.Valid) {m n : ℕ} (hmn : m ≤ n) (hn : n ≤ config.capacity) :
    (new config).cost m ≤ (new config).cost n := by
  rw [cost_le_iff h (hmn.trans hn)]
  exact hmn.trans ((cost_le_iff h hn _).mp le_rfl)

theorem cost_le_burst (h : config.Valid) {n : ℕ} (hn : n ≤ config.capacity) :
    (new config).cost n ≤ (new config).burst := cost_mono h hn le_rfl

theorem tokensIn_zero (h : config.Valid) : (new config).tokensIn 0 = 0 := by
  rcases le_or_gt 0 (new config).unitShift with hs | hs
  · rw [tokensIn_exact h hs, Nat.zero_div, Nat.zero_min]
  · rw [tokensIn_multi h hs, Nat.zero_mul, Nat.zero_min]

theorem cost_pos (h : config.Valid) {n : ℕ} (hpos : 0 < n) (hn : n ≤ config.capacity) :
    0 < (new config).cost n := by
  by_contra hzero
  have hle := (cost_le_iff h hn 0).mp (not_lt.mp hzero)
  rw [tokensIn_zero h] at hle
  omega

theorem burst_pos (h : config.Valid) : 0 < (new config).burst :=
  cost_pos h (config.valid_iff.mp h).1 le_rfl

theorem burst_lt (h : config.Valid) : (new config).burst < 2 ^ 61 := by
  rcases le_or_gt 0 (new config).unitShift with hs | hs
  · rw [burst_exact h hs]
    exact capacity_mul_grain_lt h hs
  · have hcap := config.capacity_lt
    have hgrain := grain_pos (new config)
    have hle : (new config).burst ≤ config.capacity := by
      rw [burst, cost_multi h hs, ceilDiv_le_iff_le_mul hgrain]
      exact Nat.le_mul_of_pos_left _ hgrain
    omega

/-- Every reading is past the origin of the clock, and so past a full bucket. -/
theorem burst_lt_units (h : config.Valid) (t : Duration) : (new config).burst < (new config).units t := by
  calc (new config).burst < 2 ^ 61 := burst_lt h
    _ < ORIGIN := by decide
    _ ≤ (new config).units t := origin_le_units h t

/-- A cost is never less than the exact one. -/
theorem tokens_le_cost (h : config.Valid) {n : ℕ} (hn : n ≤ config.capacity) :
    (n : ℚ) * 2 ^ (new config).unitShift ≤ (new config).cost n := by
  rcases le_or_gt 0 (new config).unitShift with hs | hs
  · rw [cost_exact h hs hn, zpow_of_exact hs]
    exact_mod_cast le_rfl
  · have hceil : n ≤ (new config).cost n * (new config).grain := by
      rw [cost_multi h hs]
      exact Scale.le_ceilDiv_mul (grain_pos _)
    have hceilQ : (n : ℚ) ≤ (new config).cost n * (new config).grain := by exact_mod_cast hceil
    have hpow : (0 : ℚ) ≤ 2 ^ (new config).unitShift := by positivity
    calc (n : ℚ) * 2 ^ (new config).unitShift
        ≤ (new config).cost n * (new config).grain * 2 ^ (new config).unitShift :=
          mul_le_mul_of_nonneg_right hceilQ hpow
      _ = (new config).cost n * (2 ^ (new config).unitShift * (new config).grain) := by ring
      _ = (new config).cost n := by rw [zpow_of_multi hs, mul_one]

theorem burst_le_of_exact (h : config.Valid) (hs : 0 ≤ (new config).unitShift) :
    ((new config).burst : ℚ) = config.capacity * 2 ^ (new config).unitShift := by
  rw [burst_exact h hs, zpow_of_exact hs, Nat.cast_mul]

/-- Rounding up adds less than a unit to a multi-token cost. -/
theorem cost_lt_of_multi (h : config.Valid) (hs : (new config).unitShift < 0) (n : ℕ) :
    ((new config).cost n : ℚ) < n * 2 ^ (new config).unitShift + 1 := by
  have hgrain := grain_pos (new config)
  have hlt : (new config).cost n * (new config).grain < n + (new config).grain := by
    rw [cost_multi h hs]
    exact Scale.ceilDiv_mul_lt hgrain
  have hltQ : ((new config).cost n : ℚ) * (new config).grain < n + (new config).grain := by
    exact_mod_cast hlt
  have hpow : (0 : ℚ) < 2 ^ (new config).unitShift := by positivity
  have hscaled := mul_lt_mul_of_pos_right hltQ hpow
  have hone := zpow_of_multi hs
  calc ((new config).cost n : ℚ)
      = (new config).cost n * (2 ^ (new config).unitShift * (new config).grain) := by rw [hone, mul_one]
    _ = (new config).cost n * (new config).grain * 2 ^ (new config).unitShift := by ring
    _ < (n + (new config).grain) * 2 ^ (new config).unitShift := hscaled
    _ = n * 2 ^ (new config).unitShift + 2 ^ (new config).unitShift * (new config).grain := by ring
    _ = n * 2 ^ (new config).unitShift + 1 := by rw [hone]

/-- A new bucket holds the price of its initial tokens. -/
theorem units_le_start_add (config : BucketConfig) (t0 : Duration) :
    (new config).units t0 ≤ start config t0 + (new config).cost config.initial := by
  rw [start, min_eq_left config.initial_le]
  omega

theorem start_le_units (config : BucketConfig) (t0 : Duration) :
    start config t0 ≤ (new config).units t0 := Nat.sub_le _ _

end Both

end BetterBucket.Core

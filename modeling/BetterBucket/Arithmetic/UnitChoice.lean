import BetterBucket.Engine.Scale

/-!
# The unit a bucket gets

Both search loops run on the exact comparisons they stand for: no shift in them drops a bit.  What
they find falls into one of three regimes, and the capacity may only make the unit coarser.
-/

namespace BetterBucket.Scale

open MachineWords

/-- The finest unit the clock allows: below one unit a nanosecond, whole tokens at up to 4.3 units
a nanosecond, or the finest multi-token unit at up to 4.3. -/
inductive Regime (amount periodNs : ℕ) (m : ℤ) : Prop
  | slow (hm : 0 ≤ m) (hlt : (amount : ℚ) * 2 ^ m < periodNs)
      (hnext : (periodNs : ℚ) ≤ amount * 2 ^ (m + 1))
  | whole (hm : m = 0) (hfast : periodNs ≤ amount) (hfit : 10 * amount ≤ 43 * periodNs)
  | multi (hm : m < 0) (hlow : -32 ≤ m) (hfast : periodNs ≤ amount)
      (hfit : 10 * (amount : ℚ) * 2 ^ m ≤ 43 * periodNs)
      (hnext : 43 * (periodNs : ℚ) < 10 * amount * 2 ^ (m + 1))

section Searches

variable {amount periodNs : ℕ} {m : ℤ}

/-- The guess starts where the product has as many bits as the period. -/
theorem shifted_amount_lt (hperiod : periodNs < 2 ^ 94) {k : ℕ}
    (hhigh : (k : ℤ) ≤ bitLength periodNs - bitLength amount) : amount * 2 ^ k < 2 ^ 128 := by
  have hbits : bitLength periodNs ≤ 94 := bitLength_le_of_lt hperiod
  have hamountLt : amount * 2 ^ k < 2 ^ (bitLength amount + k) := by
    rw [pow_add]
    exact Nat.mul_lt_mul_of_pos_right (lt_two_pow_bitLength amount) (by positivity)
  have hpow : 2 ^ (bitLength amount + k) ≤ 2 ^ 128 := Nat.pow_le_pow_right (by omega) (by omega)
  omega

theorem shifted_period_lt (hperiod : periodNs < 2 ^ 94) {k : ℕ} (hk : k ≤ 32) :
    periodNs * 2 ^ k < 2 ^ 128 := by
  have hpow : 2 ^ k ≤ 2 ^ 32 := Nat.pow_le_pow_right (by omega) hk
  calc periodNs * 2 ^ k ≤ periodNs * 2 ^ 32 := Nat.mul_le_mul_left _ hpow
    _ < 2 ^ 94 * 2 ^ 32 := Nat.mul_lt_mul_of_pos_right hperiod (by positivity)
    _ < 2 ^ 128 := by norm_num

/-- The period is narrow where the second search runs. -/
theorem shifted_limit_lt (hperiod : periodNs < 2 ^ 32) {k : ℕ} (hk : k ≤ 32) :
    43 * periodNs * 2 ^ k < 2 ^ 128 := by
  have hpow : 2 ^ k ≤ 2 ^ 32 := Nat.pow_le_pow_right (by omega) hk
  calc 43 * periodNs * 2 ^ k ≤ 43 * periodNs * 2 ^ 32 := Nat.mul_le_mul_left _ hpow
    _ < 2 ^ 128 := by omega

theorem below_iff (hperiod : periodNs < 2 ^ 94) (hlow : -32 ≤ m)
    (hhigh : m ≤ bitLength periodNs - bitLength amount) :
    below amount periodNs m ↔ (amount : ℚ) * 2 ^ m < periodNs := by
  have hbits : bitLength periodNs ≤ 94 := bitLength_le_of_lt hperiod
  rcases le_or_gt 0 m with hm | hm
  · obtain ⟨k, rfl⟩ := Int.eq_ofNat_of_zero_le hm
    rw [below, if_pos hm, Int.natAbs_natCast, shiftLeft_eq_mul (by omega)
      (shifted_amount_lt hperiod hhigh), decide_eq_true_eq, zpow_natCast]
    exact_mod_cast Iff.rfl
  · obtain ⟨k, rfl⟩ : ∃ k : ℕ, m = -k := ⟨m.natAbs, by omega⟩
    rw [below, if_neg (by omega), Int.natAbs_neg, Int.natAbs_natCast,
      shiftLeft_eq_mul (by omega) (shifted_period_lt hperiod (by omega)), decide_eq_true_eq, zpow_neg,
      zpow_natCast, mul_inv_lt_iff₀ (by positivity)]
    exact_mod_cast Iff.rfl

theorem fits_iff (hperiod : periodNs < 2 ^ 32) (hlow : -32 ≤ m) (hm : m ≤ 0) :
    fits amount periodNs m ↔ 10 * (amount : ℚ) * 2 ^ m ≤ 43 * periodNs := by
  obtain ⟨k, rfl⟩ : ∃ k : ℕ, m = -k := ⟨m.natAbs, by omega⟩
  rw [fits, FAST_CLOCK_DEN, FAST_CLOCK_NUM, Int.natAbs_neg, Int.natAbs_natCast,
    shiftLeft_eq_mul (by omega) (shifted_limit_lt hperiod (by omega)), decide_eq_true_eq, zpow_neg,
    zpow_natCast, mul_inv_le_iff₀ (by positivity)]
  exact_mod_cast Iff.rfl

/-- One below the estimate is always admissible. -/
theorem below_start_sub_one (hpos : 0 < amount) (hamount : amount < 2 ^ 32) (hperiodPos : 0 < periodNs)
    (hperiod : periodNs < 2 ^ 94) :
    below amount periodNs ((bitLength periodNs : ℤ) - bitLength amount - 1) := by
  have hamountBits : bitLength amount ≤ 32 := bitLength_le_of_lt hamount
  have hamountBitsPos := bitLength_pos hpos
  have hperiodBitsPos := bitLength_pos hperiodPos
  set start : ℤ := bitLength periodNs - bitLength amount with hstart
  rw [below_iff hperiod (by omega) (by omega)]
  calc (amount : ℚ) * 2 ^ (start - 1) < 2 ^ (bitLength amount : ℤ) * 2 ^ (start - 1) :=
        mul_lt_mul_of_pos_right (lt_two_zpow_bitLength amount) (by positivity)
    _ = 2 ^ ((bitLength periodNs : ℤ) - 1) := by
        rw [← zpow_add₀ (by norm_num)]
        congr 1
        omega
    _ ≤ periodNs := two_zpow_bitLength_pred_le hperiodPos

/-- An amount of 32 bits fits at the latest 32 steps down. -/
theorem fits_neg_32 (hamount : amount < 2 ^ 32) (hperiodPos : 0 < periodNs)
    (hperiod : periodNs < 2 ^ 32) : fits amount periodNs (-32) := by
  rw [fits_iff hperiod le_rfl (by omega), zpow_neg, mul_inv_le_iff₀ (by positivity)]
  have : (10 * amount : ℕ) ≤ 43 * periodNs * 2 ^ 32 := by omega
  exact_mod_cast this

/-- The first search: the largest `m` with `amount · 2^m < periodNs`. -/
theorem stepDown_below (hpos : 0 < amount) (hamount : amount < 2 ^ 32) (hperiodPos : 0 < periodNs)
    (hperiod : periodNs < 2 ^ 94) {limit : ℤ}
    (hlimit : limit = Descent.stepDown (below amount periodNs) loopFuel
      (bitLength periodNs - bitLength amount)) :
    (amount : ℚ) * 2 ^ limit < periodNs ∧ (periodNs : ℚ) ≤ amount * 2 ^ (limit + 1) := by
  have hamountBits : bitLength amount ≤ 32 := bitLength_le_of_lt hamount
  have hamountBitsPos := bitLength_pos hpos
  have hperiodBitsPos := bitLength_pos hperiodPos
  have hgoal := below_start_sub_one hpos hamount hperiodPos hperiod
  set start : ℤ := bitLength periodNs - bitLength amount with hstart
  have hfuel : start - (start - 1) ≤ loopFuel := by
    unfold loopFuel
    omega
  obtain ⟨hguard, hge, hle, hmax⟩ := Descent.stepDown_spec hgoal (by omega) hfuel
  rw [← hlimit] at hguard hge hle hmax
  rw [below_iff hperiod (by omega) hle] at hguard
  refine ⟨hguard, ?_⟩
  rcases eq_or_lt_of_le hle with heq | hlt
  · -- the estimate itself was admissible; one above it the product outgrows the period
    calc (periodNs : ℚ) ≤ 2 ^ (bitLength periodNs : ℤ) := (lt_two_zpow_bitLength periodNs).le
      _ = 2 ^ ((bitLength amount : ℤ) - 1) * 2 ^ (limit + 1) := by
          rw [← zpow_add₀ (by norm_num)]
          congr 1
          omega
      _ ≤ amount * 2 ^ (limit + 1) :=
          mul_le_mul_of_nonneg_right (two_zpow_bitLength_pred_le hpos) (by positivity)
  · have hnot := hmax (limit + 1) (by omega) (by omega)
    rw [below_iff hperiod (by omega) (by omega)] at hnot
    exact not_lt.mp hnot

/-- The second search, run when a token or more accrues every nanosecond. -/
theorem stepDown_fits (hamount : amount < 2 ^ 32) (hperiodPos : 0 < periodNs)
    (hfast : periodNs ≤ amount) :
    Regime amount periodNs (Descent.stepDown (fits amount periodNs) loopFuel 0) := by
  have hperiod : periodNs < 2 ^ 32 := by omega
  have hfuel : (0 : ℤ) - -32 ≤ loopFuel := by decide
  obtain ⟨hguard, hge, hle, hmax⟩ :=
    Descent.stepDown_spec (fits_neg_32 hamount hperiodPos hperiod) (by omega) hfuel
  set limit := Descent.stepDown (fits amount periodNs) loopFuel 0
  rw [fits_iff hperiod hge hle] at hguard
  rcases eq_or_lt_of_le hle with heq | hlt
  · rw [heq, zpow_zero, mul_one] at hguard
    exact .whole heq hfast (by exact_mod_cast hguard)
  · have hnot := hmax (limit + 1) (by omega) (by omega)
    rw [fits_iff hperiod (by omega) (by omega)] at hnot
    exact .multi hlt hge hfast hguard (not_le.mp hnot)

/-- The first search goes below zero only where a token or more accrues every nanosecond. -/
theorem period_le_of_limit_neg (hpos : 0 < amount) (hamount : amount < 2 ^ 32)
    (hperiodPos : 0 < periodNs) (hperiod : periodNs < 2 ^ 94) {limit : ℤ}
    (hlimit : limit = Descent.stepDown (below amount periodNs) loopFuel
      (bitLength periodNs - bitLength amount)) (hneg : limit < 0) : periodNs ≤ amount := by
  obtain ⟨-, hnext⟩ := stepDown_below hpos hamount hperiodPos hperiod hlimit
  have hpow : (2 : ℚ) ^ (limit + 1) ≤ 1 := zpow_le_one_of_nonpos₀ (by norm_num) (by omega)
  have : (periodNs : ℚ) ≤ amount := hnext.trans (mul_le_of_le_one_right (by positivity) hpow)
  exact_mod_cast this

theorem clockLimit_regime (hpos : 0 < amount) (hamount : amount < 2 ^ 32) (hperiodPos : 0 < periodNs)
    (hperiod : periodNs < 2 ^ 94) : Regime amount periodNs (clockLimit amount periodNs) := by
  obtain ⟨hlt, hnext⟩ := stepDown_below hpos hamount hperiodPos hperiod rfl
  unfold clockLimit
  dsimp only
  split
  · rename_i hneg
    apply stepDown_fits hamount hperiodPos
    exact period_le_of_limit_neg hpos hamount hperiodPos hperiod rfl hneg
  · rename_i hnonneg
    exact .slow (by omega) hlt hnext

end Searches

/-- Everything the rest of the development knows about the unit. -/
structure UnitChoice (capacity amount periodNs : ℕ) (m : ℤ) : Prop where
  low : -32 ≤ m
  high : m ≤ 60
  burst_lt : (capacity : ℚ) * 2 ^ m < 2 ^ 61
  nonneg_iff : 0 ≤ m ↔ 10 * amount ≤ 43 * periodNs
  speed : (amount : ℚ) * 2 ^ m < periodNs ∨
    periodNs ≤ amount ∧ m ≤ 0 ∧ 10 * (amount : ℚ) * 2 ^ m ≤ 43 * periodNs
  /-- a unit that is not the capacity's is at most two nanoseconds of refill -/
  fine : 0 ≤ m → 29 ≤ m ∨ (periodNs : ℚ) ≤ 2 * (amount * 2 ^ m)
  coarse : m < 0 → 43 * (periodNs : ℚ) < 20 * (amount * 2 ^ m)

/-- What the capacity limit is for: a full bucket stays below `2^61` units. -/
theorem capacity_mul_zpow_lt {capacity : ℕ} {m : ℤ} (hm : m ≤ burstLimit capacity) :
    (capacity : ℚ) * 2 ^ m < 2 ^ 61 := by
  calc (capacity : ℚ) * 2 ^ m < 2 ^ (bitLength capacity : ℤ) * 2 ^ m :=
        mul_lt_mul_of_pos_right (lt_two_zpow_bitLength capacity) (by positivity)
    _ ≤ 2 ^ (bitLength capacity : ℤ) * 2 ^ (61 - bitLength capacity : ℤ) :=
        mul_le_mul_of_nonneg_left (zpow_le_zpow_right₀ (by norm_num) hm) (by positivity)
    _ = 2 ^ 61 := by
        rw [← zpow_add₀ (by norm_num), add_sub_cancel]
        norm_num

section Regimes

variable {capacity amount periodNs : ℕ} {limit : ℤ}

/-- The capacity's limit leaves between 29 and 60 bits below the token. -/
theorem burstLimit_bounds (hcap : 0 < capacity) (hcapLt : capacity < 2 ^ 32) :
    29 ≤ burstLimit capacity ∧ burstLimit capacity ≤ 60 := by
  have hbits : bitLength capacity ≤ 32 := bitLength_le_of_lt hcapLt
  have hbitsPos := bitLength_pos hcap
  unfold burstLimit BURST_BITS
  omega

variable (hcap : 0 < capacity) (hcapLt : capacity < 2 ^ 32)

include hcap hcapLt

/-- Below a token a nanosecond the capacity may make the unit coarser, down to `2^-29` tokens. -/
theorem unitChoice_of_slow (hm : 0 ≤ limit) (hlt : (amount : ℚ) * 2 ^ limit < periodNs)
    (hnext : (periodNs : ℚ) ≤ amount * 2 ^ (limit + 1)) :
    UnitChoice capacity amount periodNs (min (burstLimit capacity) limit) := by
  have hbounds := burstLimit_bounds hcap hcapLt
  have hscaled : (amount : ℚ) * 2 ^ min (burstLimit capacity) limit ≤ amount * 2 ^ limit :=
    mul_le_mul_of_nonneg_left (zpow_le_zpow_right₀ (by norm_num) (min_le_right _ _)) (by positivity)
  have hslow : amount < periodNs := by
    have hone : (1 : ℚ) ≤ 2 ^ limit := one_le_zpow₀ (by norm_num) hm
    have : (amount : ℚ) ≤ amount * 2 ^ limit := le_mul_of_one_le_right (by positivity) hone
    exact_mod_cast this.trans_lt hlt
  constructor
  case low => omega
  case high => omega
  case burst_lt => exact capacity_mul_zpow_lt (min_le_left _ _)
  case nonneg_iff => exact iff_of_true (by omega) (by omega)
  case speed => exact .inl (hscaled.trans_lt hlt)
  case fine =>
    intro _
    -- either the clock set the unit, or the capacity did
    by_cases hclock : limit ≤ burstLimit capacity
    · right
      rw [zpow_add_one₀ (by norm_num), ← mul_assoc] at hnext
      rw [min_eq_right hclock]
      linarith
    · left
      omega
  case coarse =>
    intro hneg
    omega

/-- At up to 4.3 tokens a nanosecond a unit is a token. -/
theorem unitChoice_of_whole (hfast : periodNs ≤ amount) (hfit : 10 * amount ≤ 43 * periodNs) :
    UnitChoice capacity amount periodNs (min (burstLimit capacity) 0) := by
  have hbounds := burstLimit_bounds hcap hcapLt
  have hzero : min (burstLimit capacity) 0 = 0 := min_eq_right (by omega)
  have hburst := capacity_mul_zpow_lt (min_le_left (burstLimit capacity) 0)
  have hfastQ : (periodNs : ℚ) ≤ amount := by exact_mod_cast hfast
  have hfitQ : 10 * (amount : ℚ) ≤ 43 * periodNs := by exact_mod_cast hfit
  rw [hzero] at hburst ⊢
  constructor
  case low => omega
  case high => omega
  case burst_lt => exact hburst
  case nonneg_iff => exact iff_of_true le_rfl hfit
  case speed =>
    refine .inr ⟨hfast, le_rfl, ?_⟩
    rw [zpow_zero, mul_one]
    exact hfitQ
  case fine =>
    intro _
    right
    rw [zpow_zero, mul_one]
    linarith [(Nat.cast_nonneg periodNs : (0 : ℚ) ≤ periodNs)]
  case coarse =>
    intro hneg
    omega

/-- Faster still, the unit is the finest of several tokens. -/
theorem unitChoice_of_multi (hm : limit < 0) (hlow : -32 ≤ limit) (hfast : periodNs ≤ amount)
    (hfit : 10 * (amount : ℚ) * 2 ^ limit ≤ 43 * periodNs)
    (hnext : 43 * (periodNs : ℚ) < 10 * amount * 2 ^ (limit + 1)) :
    UnitChoice capacity amount periodNs (min (burstLimit capacity) limit) := by
  have hbounds := burstLimit_bounds hcap hcapLt
  have hlimit : min (burstLimit capacity) limit = limit := min_eq_right (by omega)
  have hburst := capacity_mul_zpow_lt (min_le_left (burstLimit capacity) limit)
  rw [hlimit] at hburst ⊢
  constructor
  case low => exact hlow
  case high => omega
  case burst_lt => exact hburst
  case nonneg_iff =>
    -- the search left zero, so whole tokens did not fit
    have hpow : (2 : ℚ) ^ (limit + 1) ≤ 1 := zpow_le_one_of_nonpos₀ (by norm_num) (by omega)
    have hle : 10 * (amount : ℚ) * 2 ^ (limit + 1) ≤ 10 * amount :=
      mul_le_of_le_one_right (by positivity) hpow
    have hfewer : 43 * periodNs < 10 * amount := by exact_mod_cast hnext.trans_le hle
    exact iff_of_false (by omega) (by omega)
  case speed => exact .inr ⟨hfast, hm.le, hfit⟩
  case fine =>
    intro hnonneg
    omega
  case coarse =>
    intro _
    rw [zpow_add_one₀ (by norm_num), ← mul_assoc] at hnext
    linarith

end Regimes

theorem deriveShift_unitChoice {capacity amount periodNs : ℕ} (hcap : 0 < capacity)
    (hcapLt : capacity < 2 ^ 32) (hpos : 0 < amount) (hamount : amount < 2 ^ 32)
    (hperiodPos : 0 < periodNs) (hperiod : periodNs < 2 ^ 94) :
    UnitChoice capacity amount periodNs (deriveShift capacity amount periodNs) := by
  have hregime := clockLimit_regime hpos hamount hperiodPos hperiod
  unfold deriveShift
  cases hregime with
  | slow hm hlt hnext => exact unitChoice_of_slow hcap hcapLt hm hlt hnext
  | whole hm hfast hfit =>
    rw [hm]
    exact unitChoice_of_whole hcap hcapLt hfast hfit
  | multi hm hlow hfast hfit hnext => exact unitChoice_of_multi hcap hcapLt hm hlow hfast hfit hnext

/-! ## Maximality -/

/-- What a unit of `2^-m` tokens has to satisfy. -/
def Admissible (capacity amount periodNs : ℕ) (m : ℤ) : Prop :=
  (capacity : ℚ) * 2 ^ m < 2 ^ 61 ∧
    ((amount : ℚ) * 2 ^ m < periodNs ∨ m ≤ 0 ∧ 10 * (amount : ℚ) * 2 ^ m ≤ 43 * periodNs)

section Maximal

variable {capacity amount periodNs : ℕ} {m j : ℤ}

theorem lt_of_mul_zpow_lt (hpos : 0 < amount) (h : (amount : ℚ) * 2 ^ j < amount * 2 ^ m) : j < m := by
  have hamount : (0 : ℚ) < amount := by exact_mod_cast hpos
  exact (zpow_lt_zpow_iff_right₀ (by norm_num)).mp (lt_of_mul_lt_mul_left h hamount.le)

/-- The capacity admits nothing finer than its limit. -/
theorem le_burstLimit (hcap : 0 < capacity) (h : (capacity : ℚ) * 2 ^ j < 2 ^ 61) :
    j ≤ burstLimit capacity := by
  have hlt : (2 : ℚ) ^ ((bitLength capacity : ℤ) - 1 + j) < 2 ^ (61 : ℤ) := by
    rw [zpow_add₀ (by norm_num)]
    calc (2 : ℚ) ^ ((bitLength capacity : ℤ) - 1) * 2 ^ j ≤ capacity * 2 ^ j :=
          mul_le_mul_of_nonneg_right (two_zpow_bitLength_pred_le hcap) (by positivity)
      _ < 2 ^ (61 : ℤ) := h
  have hexp := (zpow_lt_zpow_iff_right₀ (by norm_num : (1 : ℚ) < 2)).mp hlt
  unfold burstLimit BURST_BITS
  omega

/-- Nor does the clock, in any of its regimes. -/
theorem Regime.le (hregime : Regime amount periodNs m) (hpos : 0 < amount)
    (h : (amount : ℚ) * 2 ^ j < periodNs ∨ j ≤ 0 ∧ 10 * (amount : ℚ) * 2 ^ j ≤ 43 * periodNs) :
    j ≤ m := by
  have hperiod : (0 : ℚ) ≤ periodNs := Nat.cast_nonneg _
  cases hregime with
  | slow hm hlt hnext =>
    rcases h with hbelow | ⟨hj, -⟩
    · have := lt_of_mul_zpow_lt hpos (hbelow.trans_le hnext)
      omega
    · omega
  | whole hm hfast hfit =>
    rcases h with hbelow | ⟨hj, -⟩
    · have hle : (periodNs : ℚ) ≤ amount * 2 ^ (0 : ℤ) := by
        rw [zpow_zero, mul_one]
        exact_mod_cast hfast
      have := lt_of_mul_zpow_lt hpos (hbelow.trans_le hle)
      omega
    · omega
  | multi hm hlow hfast hfit hnext =>
    have hscaled : 10 * (amount : ℚ) * 2 ^ j ≤ 43 * periodNs := by
      rcases h with hbelow | ⟨-, hle⟩ <;> linarith
    have hlt : (amount : ℚ) * 2 ^ j < amount * 2 ^ (m + 1) := by linarith
    have := lt_of_mul_zpow_lt hpos hlt
    omega

/-- The derived unit is the finest admissible one. -/
theorem deriveShift_isGreatest (hcap : 0 < capacity) (hcapLt : capacity < 2 ^ 32) (hpos : 0 < amount)
    (hamount : amount < 2 ^ 32) (hperiodPos : 0 < periodNs) (hperiod : periodNs < 2 ^ 94) :
    IsGreatest {m | Admissible capacity amount periodNs m} (deriveShift capacity amount periodNs) := by
  have hunit := deriveShift_unitChoice hcap hcapLt hpos hamount hperiodPos hperiod
  constructor
  · exact ⟨hunit.burst_lt, hunit.speed.imp_right fun hfast => hfast.2⟩
  · rintro j ⟨hburst, hspeed⟩
    have hregime := clockLimit_regime hpos hamount hperiodPos hperiod
    exact le_min (le_burstLimit hcap hburst) (hregime.le hpos hspeed)

end Maximal

end BetterBucket.Scale

import BetterBucket.Arithmetic.UnitChoice

/-!
# The derived clock rate

The numerator keeps all its bits, so the rate is a true ceiling.  Cutting the period to 64
significant bits can only raise it, by less than one part in `2^63`.
-/

namespace BetterBucket.Scale

open MachineWords

/-- How far the `Q64` rate may lie from `amount · 2^m / periodNs` units a nanosecond. -/
structure RateBounds (amount periodNs : ℕ) (m : ℤ) (rate : ℕ) : Prop where
  pos : 0 < rate
  lt : rate < 2 ^ 72
  lower : (amount : ℚ) * 2 ^ m * 2 ^ 64 ≤ rate * periodNs
  upper : (rate : ℚ) * periodNs < amount * 2 ^ m * (2 ^ 64 + 2) + periodNs
  upper_narrow : periodNs < 2 ^ 64 → (rate : ℚ) * periodNs < amount * 2 ^ m * 2 ^ 64 + periodNs

section

variable {amount periodNs : ℕ} {m : ℤ}

/-- The period's leading bits: all of a narrow period, the top 64 of a wide one. -/
theorem drop_cases (hpos : 0 < periodNs) (hperiod : periodNs < 2 ^ 94) :
    drop periodNs = 0 ∨ ∃ d : ℕ, drop periodNs = d ∧ d ≤ 30 ∧ bitLength periodNs = 64 + d ∧
      2 ^ 63 ≤ periodNs / 2 ^ d := by
  have hbits : bitLength periodNs ≤ 94 := bitLength_le_of_lt hperiod
  unfold drop
  rcases le_or_gt (bitLength periodNs) 64 with hle | hgt
  · left
    omega
  · right
    obtain ⟨d, hd⟩ := Nat.exists_eq_add_of_le hgt.le
    refine ⟨d, by omega, by omega, hd, ?_⟩
    have hlow := two_pow_bitLength_pred_le hpos
    rw [Nat.le_div_iff_mul_le (by positivity), ← pow_add]
    rwa [hd, show 64 + d - 1 = 63 + d by omega] at hlow

theorem drop_eq_zero_of_lt (hnarrow : periodNs < 2 ^ 64) : drop periodNs = 0 := by
  have := bitLength_le_of_lt hnarrow
  unfold drop
  omega

/-- What is divided by is not zero, and has 64 bits where something was dropped. -/
theorem leading_bits (hpos : 0 < periodNs) (hperiod : periodNs < 2 ^ 94) {d : ℕ}
    (hd : drop periodNs = d) : 0 < periodNs / 2 ^ d ∧ (d = 0 ∨ 2 ^ 63 ≤ periodNs / 2 ^ d) := by
  rcases drop_cases hpos hperiod with hnone | ⟨d', hd', -, -, hwide⟩
  · obtain rfl : d = 0 := by omega
    rw [pow_zero, Nat.div_one]
    exact ⟨hpos, .inl rfl⟩
  · obtain rfl : d' = d := by omega
    exact ⟨by omega, .inr hwide⟩

theorem scaled_amount_eq (amount : ℕ) {k d : ℕ} (hkd : (k + d : ℤ) = m + 64) :
    (amount : ℚ) * 2 ^ m * 2 ^ 64 = (amount * 2 ^ k * 2 ^ d : ℕ) := by
  push_cast
  rw [mul_assoc, mul_assoc, ← zpow_natCast 2 64, ← zpow_natCast 2 k, ← zpow_natCast 2 d,
    ← zpow_add₀ (by norm_num : (2 : ℚ) ≠ 0), ← zpow_add₀ (by norm_num : (2 : ℚ) ≠ 0), hkd]
  rfl

/-- The shifted numerator fits 128 bits: the clock is below one unit a nanosecond, or the period is
narrow and the unit no finer than a token. -/
theorem numerator_lt (hamount : amount < 2 ^ 32) (hpos : 0 < periodNs) (hperiod : periodNs < 2 ^ 94)
    (hlow : -32 ≤ m) (hspeed : (amount : ℚ) * 2 ^ m < periodNs ∨
      periodNs ≤ amount ∧ m ≤ 0 ∧ 10 * (amount : ℚ) * 2 ^ m ≤ 43 * periodNs) {k : ℕ}
    (hk : (k : ℤ) = m + 64 - drop periodNs) : amount * 2 ^ k < 2 ^ 128 := by
  rcases hspeed with hslow | ⟨hfast, hm, -⟩
  · have hbits : (bitLength periodNs : ℤ) - drop periodNs ≤ 64 := by
      unfold drop
      omega
    have hwide := lt_two_zpow_bitLength periodNs
    have hcast : (amount : ℚ) * 2 ^ (k : ℤ) < 2 ^ (128 : ℤ) := by
      calc (amount : ℚ) * 2 ^ (k : ℤ) = amount * 2 ^ m * 2 ^ (64 - drop periodNs) := by
            rw [mul_assoc, ← zpow_add₀ (by norm_num), hk, add_sub_assoc]
        _ < 2 ^ (bitLength periodNs : ℤ) * 2 ^ (64 - drop periodNs) :=
            mul_lt_mul_of_pos_right (hslow.trans hwide) (by positivity)
        _ ≤ 2 ^ (128 : ℤ) := by
            rw [← zpow_add₀ (by norm_num)]
            exact zpow_le_zpow_right₀ (by norm_num) (by omega)
    rw [zpow_natCast] at hcast
    exact_mod_cast hcast
  · -- a fast clock means a narrow period, of which nothing is dropped
    have hdrop : drop periodNs = 0 := drop_eq_zero_of_lt (by omega)
    have hpow : 2 ^ k ≤ 2 ^ 64 := Nat.pow_le_pow_right (by omega) (by omega)
    calc amount * 2 ^ k ≤ amount * 2 ^ 64 := Nat.mul_le_mul_left _ hpow
      _ < 2 ^ 128 := by omega

/-- With no bit lost, the rate is the ceiling of `amount · 2^k` over the leading bits. -/
theorem deriveRate_eq (hamount : amount < 2 ^ 32) (hpos : 0 < periodNs) (hperiod : periodNs < 2 ^ 94)
    (hlow : -32 ≤ m) (hhigh : m ≤ 60) (hspeed : (amount : ℚ) * 2 ^ m < periodNs ∨
      periodNs ≤ amount ∧ m ≤ 0 ∧ 10 * (amount : ℚ) * 2 ^ m ≤ 43 * periodNs) :
    ∃ k d : ℕ, (k + d : ℤ) = m + 64 ∧ drop periodNs = d ∧
      deriveRate amount periodNs m = (amount * 2 ^ k) ⌈/⌉ (periodNs / 2 ^ d) := by
  have hdrop : 0 ≤ drop periodNs ∧ drop periodNs ≤ 30 := by
    rcases drop_cases hpos hperiod with h | ⟨d, h, hd, -, -⟩ <;> omega
  obtain ⟨d, hd⟩ := Int.eq_ofNat_of_zero_le hdrop.1
  obtain ⟨k, hk⟩ := Int.eq_ofNat_of_zero_le (show 0 ≤ m + 64 - drop periodNs by omega)
  have hnum := numerator_lt hamount hpos hperiod hlow hspeed hk.symm
  refine ⟨k, d, by omega, hd, ?_⟩
  rw [deriveRate, hk, hd, Int.natAbs_natCast, Int.natAbs_natCast, shiftLeft_eq_mul (by omega) hnum,
    shiftRight_eq_div (by omega)]

theorem ceilDiv_mul_lt {a b : ℕ} (hb : 0 < b) : (a ⌈/⌉ b) * b < a + b := by
  rw [Nat.ceilDiv_eq_add_pred_div]
  have := Nat.div_mul_le_self (a + b - 1) b
  omega

theorem le_ceilDiv_mul {a b : ℕ} (hb : 0 < b) : a ≤ (a ⌈/⌉ b) * b := by
  rw [Nat.mul_comm]
  exact (ceilDiv_le_iff_le_mul hb).mp le_rfl

/-! ## A ceiling over the leading bits

Dividing by the leading bits of a period in place of all of it raises the quotient, by at most one
part in `2^63` when at least 64 bits are kept. -/

section Cut

variable {num period d : ℕ}

theorem le_cut_mul (htop : 0 < period / 2 ^ d) :
    num * 2 ^ d ≤ (num ⌈/⌉ (period / 2 ^ d)) * period := by
  calc num * 2 ^ d ≤ (num ⌈/⌉ (period / 2 ^ d)) * (period / 2 ^ d) * 2 ^ d :=
        Nat.mul_le_mul_right _ (le_ceilDiv_mul htop)
    _ = (num ⌈/⌉ (period / 2 ^ d)) * (period / 2 ^ d * 2 ^ d) := Nat.mul_assoc _ _ _
    _ ≤ (num ⌈/⌉ (period / 2 ^ d)) * period := Nat.mul_le_mul_left _ (Nat.div_mul_le_self _ _)

theorem cut_mul_lt (hnum : 0 < num) (hwide : 2 ^ 63 ≤ period / 2 ^ d) :
    (num ⌈/⌉ (period / 2 ^ d)) * period * 2 ^ 63 < num * 2 ^ d * (2 ^ 63 + 1) + period * 2 ^ 63 := by
  have hround : (num ⌈/⌉ (period / 2 ^ d)) * (period / 2 ^ d) < num + period / 2 ^ d :=
    ceilDiv_mul_lt (by omega)
  have hperiod : period < (period / 2 ^ d + 1) * 2 ^ d :=
    (Nat.div_lt_iff_lt_mul (by positivity)).mp (Nat.lt_succ_self _)
  set top := period / 2 ^ d
  obtain ⟨rate, hrate⟩ : ∃ rate, num ⌈/⌉ top = rate + 1 := by
    refine Nat.exists_eq_add_of_le' (Nat.pos_of_ne_zero fun hzero => ?_)
    have hle : num ≤ (num ⌈/⌉ top) * top := le_ceilDiv_mul (by omega)
    rw [hzero, Nat.zero_mul] at hle
    omega
  rw [hrate, Nat.succ_mul] at hround ⊢
  have hkept : rate * top < num := by omega
  -- the bits that are cut cost one unit of the last bit kept, for each unit of the rate
  have hcut : rate * period * 2 ^ 63 ≤ (rate * top * 2 ^ 63 + rate * top) * 2 ^ d := by
    calc rate * period * 2 ^ 63 ≤ rate * ((top + 1) * 2 ^ d) * 2 ^ 63 := by gcongr
      _ = (rate * top * 2 ^ 63 + rate * 2 ^ 63) * 2 ^ d := by ring
      _ ≤ (rate * top * 2 ^ 63 + rate * top) * 2 ^ d := by gcongr
  have hbound : (rate * top * 2 ^ 63 + rate * top) * 2 ^ d < num * 2 ^ d * (2 ^ 63 + 1) := by
    calc (rate * top * 2 ^ 63 + rate * top) * 2 ^ d = rate * top * (2 ^ d * (2 ^ 63 + 1)) := by ring
      _ < num * (2 ^ d * (2 ^ 63 + 1)) := Nat.mul_lt_mul_of_pos_right hkept (by positivity)
      _ = num * 2 ^ d * (2 ^ 63 + 1) := by ring
  rw [Nat.add_mul]
  omega

end Cut

section Bounds

variable (hpos : 0 < amount) (hamount : amount < 2 ^ 32) (hperiodPos : 0 < periodNs)
  (hperiod : periodNs < 2 ^ 94) (hlow : -32 ≤ m) (hhigh : m ≤ 60)
  (hspeed : (amount : ℚ) * 2 ^ m < periodNs ∨
    periodNs ≤ amount ∧ m ≤ 0 ∧ 10 * (amount : ℚ) * 2 ^ m ≤ 43 * periodNs)

include hamount hperiodPos hperiod hlow hhigh hspeed

theorem deriveRate_lower :
    (amount : ℚ) * 2 ^ m * 2 ^ 64 ≤ deriveRate amount periodNs m * periodNs := by
  obtain ⟨k, d, hkd, hd, heq⟩ := deriveRate_eq hamount hperiodPos hperiod hlow hhigh hspeed
  rw [scaled_amount_eq amount hkd, heq]
  exact_mod_cast le_cut_mul (leading_bits hperiodPos hperiod hd).1

/-- A period that is divided by whole costs less than its rounding up. -/
theorem deriveRate_upper_narrow (hdrop : drop periodNs = 0) :
    (deriveRate amount periodNs m : ℚ) * periodNs < amount * 2 ^ m * 2 ^ 64 + periodNs := by
  obtain ⟨k, d, hkd, hd, heq⟩ := deriveRate_eq hamount hperiodPos hperiod hlow hhigh hspeed
  obtain rfl : d = 0 := by omega
  rw [scaled_amount_eq amount hkd, heq, pow_zero, Nat.div_one, Nat.mul_one]
  exact_mod_cast ceilDiv_mul_lt hperiodPos

include hpos

theorem deriveRate_upper : (deriveRate amount periodNs m : ℚ) * periodNs <
    amount * 2 ^ m * (2 ^ 64 + 2) + periodNs := by
  obtain ⟨k, d, hkd, hd, heq⟩ := deriveRate_eq hamount hperiodPos hperiod hlow hhigh hspeed
  have hspeedPos : (0 : ℚ) < amount * 2 ^ m := by
    have : (0 : ℚ) < amount := by exact_mod_cast hpos
    positivity
  rcases (leading_bits hperiodPos hperiod hd).2 with hzero | hwide
  · have hnarrow := deriveRate_upper_narrow hamount hperiodPos hperiod hlow hhigh hspeed
      (by omega : drop periodNs = 0)
    linarith
  · -- cutting the period adds one part in `2^63` to the rounding
    have hnum : 0 < amount * 2 ^ k := Nat.mul_pos hpos (by positivity)
    have hcut : (deriveRate amount periodNs m : ℚ) * periodNs * 2 ^ 63 <
        amount * 2 ^ m * 2 ^ 64 * (2 ^ 63 + 1) + periodNs * 2 ^ 63 := by
      rw [scaled_amount_eq amount hkd, heq]
      exact_mod_cast cut_mul_lt hnum hwide
    linarith

theorem deriveRate_bounds : RateBounds amount periodNs m (deriveRate amount periodNs m) := by
  have hlower := deriveRate_lower hamount hperiodPos hperiod hlow hhigh hspeed
  have hupper := deriveRate_upper hpos hamount hperiodPos hperiod hlow hhigh hspeed
  have hperiodQ : (0 : ℚ) < periodNs := by exact_mod_cast hperiodPos
  have hspeedPos : (0 : ℚ) < amount * 2 ^ m := by
    have : (0 : ℚ) < amount := by exact_mod_cast hpos
    positivity
  have hspeedLe : (amount : ℚ) * 2 ^ m * 10 ≤ 43 * periodNs := by
    rcases hspeed with h | ⟨-, -, h⟩ <;> linarith
  constructor
  case pos =>
    have hprod : (0 : ℚ) < deriveRate amount periodNs m * periodNs := by linarith
    exact_mod_cast pos_of_mul_pos_left hprod hperiodQ.le
  case lt =>
    have hbound : (deriveRate amount periodNs m : ℚ) * periodNs < 2 ^ 72 * periodNs := by linarith
    have := lt_of_mul_lt_mul_right hbound hperiodQ.le
    exact_mod_cast this
  case lower => exact hlower
  case upper => exact hupper
  case upper_narrow =>
    intro hnarrow
    exact deriveRate_upper_narrow hamount hperiodPos hperiod hlow hhigh hspeed
      (drop_eq_zero_of_lt hnarrow)

end Bounds

end

/-! ## The period that is divided by -/

/-- The period with all but its 64 leading bits cleared. -/
def cutPeriod (periodNs : ℕ) : ℕ :=
  let dropped := bitLength periodNs - 64
  periodNs / 2 ^ dropped * 2 ^ dropped

section CutPeriod

variable {amount periodNs : ℕ} {m : ℤ}

theorem cutPeriod_eq {d : ℕ} (hd : drop periodNs = d) :
    cutPeriod periodNs = periodNs / 2 ^ d * 2 ^ d := by
  have hdropped : bitLength periodNs - 64 = d := by
    unfold drop at hd
    omega
  rw [cutPeriod, hdropped]

theorem cutPeriod_of_lt (hnarrow : periodNs < 2 ^ 64) : cutPeriod periodNs = periodNs := by
  have hdrop : drop periodNs = (0 : ℕ) := drop_eq_zero_of_lt hnarrow
  rw [cutPeriod_eq hdrop, pow_zero, Nat.div_one, Nat.mul_one]

/-- A narrow period is not cut; a wide one keeps 64 bits. -/
theorem cutPeriod_cases (hpos : 0 < periodNs) (hperiod : periodNs < 2 ^ 94) :
    cutPeriod periodNs = periodNs ∧ periodNs < 2 ^ 64 ∨
      ∃ d top : ℕ, cutPeriod periodNs = top * 2 ^ d ∧ d ≤ 30 ∧ 2 ^ 63 ≤ top ∧ top < 2 ^ 64 ∧
        periodNs < (top + 1) * 2 ^ d := by
  by_cases hnarrow : periodNs < 2 ^ 64
  · exact .inl ⟨cutPeriod_of_lt hnarrow, hnarrow⟩
  · right
    have hwide : 64 < bitLength periodNs := by
      by_contra hle
      have hpow : 2 ^ bitLength periodNs ≤ 2 ^ 64 := Nat.pow_le_pow_right (by omega) (by omega)
      have hlt := lt_two_pow_bitLength periodNs
      omega
    rcases drop_cases hpos hperiod with hzero | ⟨d, hd, hle, hbits, htop⟩
    · unfold drop at hzero
      omega
    · refine ⟨d, periodNs / 2 ^ d, cutPeriod_eq hd, hle, htop, ?_, ?_⟩
      · rw [Nat.div_lt_iff_lt_mul (by positivity), ← pow_add, ← hbits]
        exact lt_two_pow_bitLength periodNs
      · exact (Nat.div_lt_iff_lt_mul (by positivity)).mp (Nat.lt_succ_self _)

theorem cutPeriod_pos (hpos : 0 < periodNs) (hperiod : periodNs < 2 ^ 94) : 0 < cutPeriod periodNs := by
  rcases cutPeriod_cases hpos hperiod with ⟨heq, -⟩ | ⟨d, top, heq, -, htop, -, -⟩
  · omega
  · rw [heq]
    exact Nat.mul_pos (by omega) (by positivity)

theorem ceilDiv_eq_natCeil {a b : ℕ} (hb : 0 < b) : a ⌈/⌉ b = ⌈(a : ℚ) / b⌉₊ := by
  have hbQ : (0 : ℚ) < b := by exact_mod_cast hb
  apply eq_of_forall_ge_iff
  intro n
  rw [ceilDiv_le_iff_le_mul hb, Nat.ceil_le, div_le_iff₀ hbQ, Nat.mul_comm]
  exact_mod_cast Iff.rfl

/-- The rate is the exact one over the cut period, rounded up. -/
theorem deriveRate_eq_ceil (hamount : amount < 2 ^ 32) (hpos : 0 < periodNs)
    (hperiod : periodNs < 2 ^ 94) (hlow : -32 ≤ m) (hhigh : m ≤ 60)
    (hspeed : (amount : ℚ) * 2 ^ m < periodNs ∨
      periodNs ≤ amount ∧ m ≤ 0 ∧ 10 * (amount : ℚ) * 2 ^ m ≤ 43 * periodNs) :
    deriveRate amount periodNs m = ⌈(amount : ℚ) * 2 ^ m * 2 ^ 64 / cutPeriod periodNs⌉₊ := by
  obtain ⟨k, d, hkd, hd, heq⟩ := deriveRate_eq hamount hpos hperiod hlow hhigh hspeed
  have htop := (leading_bits hpos hperiod hd).1
  rw [cutPeriod_eq hd, heq, ceilDiv_eq_natCeil htop, scaled_amount_eq amount hkd,
    Nat.cast_mul (periodNs / 2 ^ d),
    Nat.cast_mul (amount * 2 ^ k), Nat.cast_pow, Nat.cast_ofNat, mul_div_mul_right _ _ (by positivity)]

/-- An amount below the cut period is below it by a `2^64`th at least. -/
theorem scaled_add_cutPeriod_le (hamount : amount < 2 ^ 32) (hpos : 0 < periodNs)
    (hperiod : periodNs < 2 ^ 94) {j : ℕ} (hlt : amount * 2 ^ j < cutPeriod periodNs) :
    amount * 2 ^ j * 2 ^ 64 + cutPeriod periodNs ≤ cutPeriod periodNs * 2 ^ 64 := by
  rcases cutPeriod_cases hpos hperiod with
    ⟨heq, hnarrow⟩ | ⟨d, top, heq, hd, htop, htopLt, -⟩
  · omega
  rw [heq] at hlt ⊢
  by_cases hj : d ≤ j
  · -- both end in `d` zero bits
    obtain ⟨i, rfl⟩ := Nat.exists_eq_add_of_le hj
    rw [Nat.add_comm d i, pow_add, ← Nat.mul_assoc] at hlt ⊢
    have hbelow : amount * 2 ^ i < top := Nat.lt_of_mul_lt_mul_right hlt
    have hstep : amount * 2 ^ i * 2 ^ 64 + top ≤ top * 2 ^ 64 := by omega
    calc amount * 2 ^ i * 2 ^ d * 2 ^ 64 + top * 2 ^ d
        = (amount * 2 ^ i * 2 ^ 64 + top) * 2 ^ d := by ring
      _ ≤ top * 2 ^ 64 * 2 ^ d := Nat.mul_le_mul_right _ hstep
      _ = top * 2 ^ d * 2 ^ 64 := by ring
  · -- an amount scaled by less than `2^30` is far below any wide period
    have hpow : 2 ^ j ≤ 2 ^ 29 := Nat.pow_le_pow_right (by omega) (by omega)
    have hsmall : amount * 2 ^ j ≤ 2 ^ 32 * 2 ^ 29 := Nat.mul_le_mul hamount.le hpow
    have hlarge : 2 ^ 63 * 1 ≤ top * 2 ^ d := Nat.mul_le_mul htop (Nat.one_le_two_pow)
    omega

/-- Between a period and the same period cut there is no amount but the cut period itself. -/
theorem eq_cutPeriod_of_le (hamount : amount < 2 ^ 32) (hpos : 0 < periodNs)
    (hperiod : periodNs < 2 ^ 94) {j : ℕ} (hle : cutPeriod periodNs ≤ amount * 2 ^ j)
    (hlt : amount * 2 ^ j < periodNs) : amount * 2 ^ j = cutPeriod periodNs := by
  rcases cutPeriod_cases hpos hperiod with
    ⟨heq, -⟩ | ⟨d, top, heq, hd, htop, htopLt, hnext⟩
  · omega
  rw [heq] at hle ⊢
  have hj : d ≤ j := by
    by_contra hshort
    have hpow : 2 ^ j ≤ 2 ^ 29 := Nat.pow_le_pow_right (by omega) (by omega)
    have hsmall : amount * 2 ^ j ≤ 2 ^ 32 * 2 ^ 29 := Nat.mul_le_mul hamount.le hpow
    have hlarge : 2 ^ 63 * 1 ≤ top * 2 ^ d := Nat.mul_le_mul htop Nat.one_le_two_pow
    omega
  obtain ⟨i, rfl⟩ := Nat.exists_eq_add_of_le hj
  rw [Nat.add_comm d i, pow_add, ← Nat.mul_assoc] at hle hlt ⊢
  have hge : top ≤ amount * 2 ^ i := Nat.le_of_mul_le_mul_right hle (by positivity)
  have hnotAbove : amount * 2 ^ i < top + 1 := Nat.lt_of_mul_lt_mul_right (hlt.trans hnext)
  rw [show amount * 2 ^ i = top by omega]

/-- Below a unit a nanosecond the rate has no whole part, unless the cut period is what accrues over
it. -/
theorem deriveRate_lt_iff (hamount : amount < 2 ^ 32) (hperiodPos : 0 < periodNs)
    (hperiod : periodNs < 2 ^ 94) {j : ℕ} (hhigh : j ≤ 60) (hslow : amount * 2 ^ j < periodNs) :
    deriveRate amount periodNs j < 2 ^ 64 ↔ amount * 2 ^ j < cutPeriod periodNs := by
  have hslowQ : (amount : ℚ) * 2 ^ (j : ℤ) < periodNs := by
    rw [zpow_natCast]
    exact_mod_cast hslow
  have hcut : (0 : ℚ) < cutPeriod periodNs := by exact_mod_cast cutPeriod_pos hperiodPos hperiod
  rw [deriveRate_eq_ceil hamount hperiodPos hperiod (by omega) (by omega) (.inl hslowQ), zpow_natCast,
    lt_two_pow_iff_le_maxValue, Nat.ceil_le, div_le_iff₀ hcut]
  have hnat : amount * 2 ^ j * 2 ^ 64 ≤ maxValue 64 * cutPeriod periodNs ↔
      amount * 2 ^ j < cutPeriod periodNs := by
    have hcutPos := cutPeriod_pos hperiodPos hperiod
    have hmax : maxValue 64 * cutPeriod periodNs + cutPeriod periodNs =
        cutPeriod periodNs * 2 ^ 64 := by
      unfold maxValue
      omega
    constructor
    · intro hle
      omega
    · intro hlt
      have hstep := scaled_add_cutPeriod_le hamount hperiodPos hperiod hlt
      rw [← hmax] at hstep
      exact Nat.le_of_add_le_add_right hstep
  rw [← hnat]
  exact_mod_cast Iff.rfl

end CutPeriod

end BetterBucket.Scale

import BetterBucket.Arithmetic.Tokens
import BetterBucket.Engine.Checked

/-!
# No step of the arithmetic traps

Every conversion of the engine has a result in arithmetic that traps, and it is the one of the plain
engine.  For the derivation this rests on the bounds of the unit; the rest uses only what a derived
engine is known to keep (`Sound`).
-/

namespace BetterBucket.Checked

open MachineWords Trapping BetterBucket.Core

/-! ## The derivation -/

section Derive

variable {capacity amount periodNs : ℕ} {m : ℤ}

theorem bits_eq {x : ℕ} (hx : x < 2 ^ 128) : bits x = some (bitLength x : ℤ) := by
  have hle : bitLength x ≤ 128 := bitLength_le_of_lt hx
  have hzeros : leadingZeros 128 x ≤ 128 := Nat.sub_le _ _
  have hsignificant : 128 - leadingZeros 128 x = bitLength x := by
    unfold leadingZeros
    omega
  rw [bits, bind_eq (sub_eq hzeros), hsignificant]
  exact signed_eq (by omega) (by omega)

theorem below_eq (hperiod : periodNs < 2 ^ 94) (hlow : -32 ≤ m)
    (hhigh : m ≤ bitLength periodNs - bitLength amount) :
    below amount periodNs m = some (Scale.below amount periodNs m) := by
  have hbits : bitLength periodNs ≤ 94 := bitLength_le_of_lt hperiod
  by_cases hm : 0 ≤ m
  · have hfit : amount * 2 ^ m.natAbs < 2 ^ 128 := Scale.shifted_amount_lt hperiod (by omega)
    rw [below, if_pos hm, bind_eq (shl_eq (by omega) hfit), Scale.below, if_pos hm]
    rfl
  · have hfit : periodNs * 2 ^ m.natAbs < 2 ^ 128 := Scale.shifted_period_lt hperiod (by omega)
    rw [below, if_neg hm, bind_eq (shl_eq (by omega) hfit), Scale.below, if_neg hm]
    rfl

theorem fits_eq (hamount : amount < 2 ^ 32) (hperiod : periodNs < 2 ^ 32) (hlow : -32 ≤ m)
    (hm : m ≤ 0) : fits amount periodNs m = some (Scale.fits amount periodNs m) := by
  have haccrued : FAST_CLOCK_DEN * amount < 2 ^ 128 := by
    unfold FAST_CLOCK_DEN
    omega
  have hlimit : FAST_CLOCK_NUM * periodNs < 2 ^ 128 := by
    unfold FAST_CLOCK_NUM
    omega
  have hfit : FAST_CLOCK_NUM * periodNs * 2 ^ m.natAbs < 2 ^ 128 :=
    Scale.shifted_limit_lt hperiod (by omega)
  rw [fits, bind_eq (mul_eq haccrued), bind_eq (mul_eq hlimit), bind_eq (shl_eq (by omega) hfit)]
  rfl

theorem burstLimit_eq (hcap : capacity < 2 ^ 32) :
    burstLimit capacity = some (Scale.burstLimit capacity) := by
  have hle : bitLength capacity ≤ 32 := bitLength_le_of_lt hcap
  rw [burstLimit, bind_eq (bits_eq (by omega)), Scale.burstLimit, BURST_BITS]
  exact subSigned_eq (by omega) (by omega)

section Searches

variable (hpos : 0 < amount) (hamount : amount < 2 ^ 32) (hperiodPos : 0 < periodNs)
  (hperiod : periodNs < 2 ^ 94)

include hpos hamount hperiodPos hperiod

theorem countDown_below :
    countDown 32 (below amount periodNs) Scale.loopFuel (bitLength periodNs - bitLength amount) =
      some (Descent.stepDown (Scale.below amount periodNs) Scale.loopFuel
        (bitLength periodNs - bitLength amount)) := by
  have hamountBits : bitLength amount ≤ 32 := bitLength_le_of_lt hamount
  have hperiodBits : bitLength periodNs ≤ 94 := bitLength_le_of_lt hperiod
  have hperiodBitsPos := bitLength_pos hperiodPos
  have hfuel : (Scale.loopFuel : ℤ) = 128 := rfl
  -- one step down at the latest, so the guard is only asked where its shift fits
  apply countDown_eq (Scale.below_start_sub_one hpos hamount hperiodPos hperiod)
  · omega
  · omega
  · intro j hlow hhigh
    exact below_eq hperiod (by omega) hhigh
  · omega
  · omega

/-- Both searches end. -/
theorem clockLimit_eq : clockLimit amount periodNs = some (Scale.clockLimit amount periodNs) := by
  have hamountBits : bitLength amount ≤ 32 := bitLength_le_of_lt hamount
  have hperiodBits : bitLength periodNs ≤ 94 := bitLength_le_of_lt hperiod
  have hfuel : (Scale.loopFuel : ℤ) = 128 := rfl
  rw [clockLimit, bind_eq (bits_eq (by omega)), bind_eq (bits_eq (by omega)),
    bind_eq (subSigned_eq (by omega) (by omega)),
    bind_eq (countDown_below hpos hamount hperiodPos hperiod), Scale.clockLimit]
  split
  · -- the second search runs on a period of at most 32 bits
    rename_i hneg
    have hfast := Scale.period_le_of_limit_neg hpos hamount hperiodPos hperiod rfl hneg
    have hnarrow : periodNs < 2 ^ 32 := by omega
    apply countDown_eq (Scale.fits_neg_32 hamount hperiodPos hnarrow)
    · omega
    · omega
    · intro j hlow hhigh
      exact fits_eq hamount hnarrow hlow hhigh
    · omega
    · omega
  · rfl

end Searches

theorem deriveShift_eq (hcap : capacity < 2 ^ 32) (hpos : 0 < amount) (hamount : amount < 2 ^ 32)
    (hperiodPos : 0 < periodNs) (hperiod : periodNs < 2 ^ 94) :
    deriveShift capacity amount periodNs = some (Scale.deriveShift capacity amount periodNs) := by
  rw [deriveShift, bind_eq (burstLimit_eq hcap),
    bind_eq (clockLimit_eq hpos hamount hperiodPos hperiod)]
  rfl

/-- The numerator of the rate keeps its bits, and the leading bits of the period are not zero. -/
theorem deriveRate_eq (hamount : amount < 2 ^ 32) (hperiodPos : 0 < periodNs)
    (hperiod : periodNs < 2 ^ 94) (hlow : -32 ≤ m) (hhigh : m ≤ 60)
    (hspeed : (amount : ℚ) * 2 ^ m < periodNs ∨
      periodNs ≤ amount ∧ m ≤ 0 ∧ 10 * (amount : ℚ) * 2 ^ m ≤ 43 * periodNs) :
    deriveRate amount periodNs m = some (Scale.deriveRate amount periodNs m) := by
  have hbits : bitLength periodNs ≤ 94 := bitLength_le_of_lt hperiod
  have hdrop : max ((bitLength periodNs : ℤ) - 64) 0 = Scale.drop periodNs := rfl
  have hrange : 0 ≤ Scale.drop periodNs ∧ Scale.drop periodNs ≤ 30 := by
    unfold Scale.drop
    omega
  -- the divisor: the leading bits of a period that is not zero
  have htop : 0 < shiftRight 128 periodNs (Scale.drop periodNs).natAbs := by
    rw [shiftRight_eq_div (by omega)]
    exact (Scale.leading_bits hperiodPos hperiod (by omega)).1
  have hnumerator : amount * 2 ^ (m + 64 - Scale.drop periodNs).natAbs < 2 ^ 128 :=
    Scale.numerator_lt hamount hperiodPos hperiod hlow hspeed (by omega)
  rw [deriveRate, bind_eq (bits_eq (by omega)), bind_eq (subSigned_eq (by omega) (by omega)), hdrop]
  dsimp only
  rw [bind_eq (shr_eq (by omega)), bind_eq (addSigned_eq (by omega) (by omega)),
    bind_eq (subSigned_eq (by omega) (by omega)), bind_eq (shl_eq (by omega) hnumerator)]
  exact divCeil_eq htop

/-- None of the conversions of the result falls back. -/
theorem derive_eq {amount : ℕ} {period : Duration} (hcap : capacity < 2 ^ 32)
    (hamount : amount < 2 ^ 32) :
    derive capacity amount period = some (Scale.derive capacity amount period) := by
  rw [derive, Scale.derive]
  split
  · rfl
  · rename_i hproper
    simp only [Duration.isZero, beq_iff_eq, not_or] at hproper
    obtain ⟨hcapPos, hamountPos, hperiodPos⟩ := hproper
    have hperiod : period.asNanos < 2 ^ 94 :=
      lt_of_lt_of_le period.asNanos_lt (by norm_num [NANOS_PER_SEC])
    have hunit := Scale.deriveShift_unitChoice (Nat.pos_of_ne_zero hcapPos) hcap
      (Nat.pos_of_ne_zero hamountPos) hamount (Nat.pos_of_ne_zero hperiodPos) hperiod
    have hshift := deriveShift_eq hcap (Nat.pos_of_ne_zero hamountPos) hamount
      (Nat.pos_of_ne_zero hperiodPos) hperiod
    have hlow := hunit.low
    have hhigh := hunit.high
    have hrate := (Scale.deriveRate_bounds (Nat.pos_of_ne_zero hamountPos) hamount
      (Nat.pos_of_ne_zero hperiodPos) hperiod hunit.low hunit.high hunit.speed).lt
    have hderive := deriveRate_eq hamount (Nat.pos_of_ne_zero hperiodPos) hperiod hunit.low hunit.high
      hunit.speed
    set m := Scale.deriveShift capacity amount period.asNanos
    set rate := Scale.deriveRate amount period.asNanos m
    -- 72 bits of rate leave 8 above the fraction
    have hint : shiftRight 128 rate 64 ≤ maxValue 8 := by
      rw [shiftRight_eq_div (by omega)]
      unfold maxValue
      omega
    have hfrac : rate &&& maxValue 64 ≤ maxValue 64 := Nat.and_le_right
    rw [bind_eq hshift, bind_eq hderive, bind_eq (shr_eq (by omega)), bind_eq (tryFrom_of_le hint),
      bind_eq (tryFrom_of_le hfrac), bind_eq (signed_eq (by omega) (by omega))]
    dsimp only
    rw [tryFrom_of_le hint, tryFrom_of_le hfrac, if_pos (by omega)]
    rfl

end Derive

/-! ## The conversions -/

/-- What a derived engine keeps: its rate and its shift are in range, and the capacity leaves room to
be shifted. -/
structure Sound (core : Core) : Prop where
  rateFrac_lt : core.rateFrac < 2 ^ 64
  rateInt_lt : core.rateInt < 2 ^ 8
  rate_pos : 0 < core.rate
  shift_lt : core.unitShift.natAbs < 64
  capacity_lt : core.capacity < 2 ^ 32
  capacity_fits : 0 ≤ core.unitShift → core.capacity * 2 ^ core.unitShift.natAbs < 2 ^ 61

theorem sound_new {config : BucketConfig} (h : config.Valid) : Sound (.new config) := by
  have hrate := rateBounds h
  constructor
  case rateFrac_lt => exact (new_scale h).2.1
  case rateInt_lt =>
    have hsplit := rate_eq (new_scale h).2.1
    have := hrate.lt
    omega
  case rate_pos => exact hrate.pos
  case shift_lt => exact natAbs_unitShift_lt h
  case capacity_lt => exact config.capacity_lt
  case capacity_fits => exact capacity_mul_grain_lt h

section Conversions

variable {core : Core} (hs : Sound core)

include hs

theorem units_eq (now : Duration) : units core now = some (core.units now) := by
  have hnanos : durationNanos now < 2 ^ 64 := by
    rw [durationNanos_eq, lt_two_pow_iff_le_maxValue]
    exact min_le_right _ _
  have hproduct : durationNanos now * core.rateFrac < 2 ^ 128 := by
    calc durationNanos now * core.rateFrac ≤ 2 ^ 64 * core.rateFrac := Nat.mul_le_mul_right _ hnanos.le
      _ < 2 ^ 64 * 2 ^ 64 := Nat.mul_lt_mul_of_pos_left hs.rateFrac_lt (by positivity)
      _ = 2 ^ 128 := by norm_num
  have haccrued : (
      if core.rateInt ≠ 0 then do
        let whole ← mul 128 (durationNanos now) core.rateInt
        add 128 (shiftRight 128 (durationNanos now * core.rateFrac) 64) whole
      else some (shiftRight 128 (durationNanos now * core.rateFrac) 64)) =
      some (
        if core.rateInt ≠ 0 then
          shiftRight 128 (durationNanos now * core.rateFrac) 64 + durationNanos now * core.rateInt
        else shiftRight 128 (durationNanos now * core.rateFrac) 64) := by
    split
    · -- 72 bits for the whole part and 64 for the fraction are far from 128
      have hwhole : durationNanos now * core.rateInt ≤ 2 ^ 64 * 2 ^ 8 :=
        Nat.mul_le_mul hnanos.le hs.rateInt_lt.le
      have hpart : shiftRight 128 (durationNanos now * core.rateFrac) 64 < 2 ^ 64 := by
        rw [shiftRight_eq_div (by omega), Nat.div_lt_iff_lt_mul (by positivity)]
        exact hproduct
      rw [bind_eq (mul_eq (by omega))]
      exact add_eq (by omega)
    · rfl
  rw [units]
  rw [bind_eq (mul_eq hproduct), bind_eq (shr_eq (by omega)), bind_eq haccrued]
  rfl

theorem cost_eq {n : ℕ} (hn : n ≤ core.capacity) : cost core n = some (core.cost n) := by
  have hshift := hs.shift_lt
  have hcap := hs.capacity_lt
  rw [cost, Core.cost]
  split
  · -- no more tokens than the capacity, which was shifted without loss
    rename_i hexact
    have hle : n * 2 ^ core.unitShift.natAbs ≤ core.capacity * 2 ^ core.unitShift.natAbs :=
      Nat.mul_le_mul_right _ hn
    have hlt := hs.capacity_fits hexact
    exact shl_eq hshift (by omega)
  split
  · rfl
  · have hwholes : shiftRight 64 (n - 1) core.unitShift.natAbs ≤ n - 1 := by
      rw [shiftRight_eq_div hshift]
      exact Nat.div_le_self _ _
    rw [bind_eq (sub_eq (by omega)), bind_eq (shr_eq hshift)]
    exact add_eq (by omega)

theorem burst_eq : burst core = some core.burst := cost_eq hs le_rfl

theorem cost_lt {n : ℕ} (hn : n ≤ core.capacity) : core.cost n < 2 ^ 61 := by
  have hshift := hs.shift_lt
  have hcap := hs.capacity_lt
  rw [Core.cost]
  split
  · rename_i hexact
    have hle : n * 2 ^ core.unitShift.natAbs ≤ core.capacity * 2 ^ core.unitShift.natAbs :=
      Nat.mul_le_mul_right _ hn
    have hlt := hs.capacity_fits hexact
    rw [shiftLeft_eq_mul hshift (by omega)]
    omega
  split
  · norm_num
  · have hwholes : shiftRight 64 (n - 1) core.unitShift.natAbs ≤ n - 1 := by
      rw [shiftRight_eq_div hshift]
      exact Nat.div_le_self _ _
    omega

/-- Every reading is above the price of a full bucket, so it can be taken off. -/
theorem sub_cost_eq (now : Duration) {n : ℕ} (hn : n ≤ core.capacity) :
    sub (core.units now) (core.cost n) = some (core.units now - core.cost n) := by
  apply sub_eq
  calc core.cost n ≤ ORIGIN := (cost_lt hs hn).le.trans (by decide)
    _ ≤ core.units now := le_min (Nat.le_add_right _ _) (by decide)

theorem sub_burst_eq (now : Duration) :
    sub (core.units now) core.burst = some (core.units now - core.burst) := sub_cost_eq hs now le_rfl

/-- The tokens of what is less than a full bucket of multi-token units. -/
theorem shifted_credit_lt (hmulti : ¬ 0 ≤ core.unitShift) {credit : ℕ} (hcredit : credit < core.burst) :
    credit * 2 ^ core.unitShift.natAbs < 2 ^ 32 := by
  have hcap := hs.capacity_lt
  rw [Core.burst, Core.cost, if_neg hmulti] at hcredit
  split at hcredit
  · omega
  · rw [shiftRight_eq_div hs.shift_lt, Nat.lt_succ_iff, Nat.le_div_iff_mul_le (by positivity)] at hcredit
    omega

theorem tokensFor_eq {credit : ℕ} (hcredit : credit < core.burst) :
    tokensFor core credit = some (core.tokensFor credit) := by
  have hshift := hs.shift_lt
  have hcap := hs.capacity_lt
  have htokens : (
      if 0 ≤ core.unitShift then shr 64 credit core.unitShift.natAbs
      else shl 64 credit core.unitShift.natAbs) =
      some (
        if 0 ≤ core.unitShift then shiftRight 64 credit core.unitShift.natAbs
        else shiftLeft 64 credit core.unitShift.natAbs) := by
    split
    · exact shr_eq hshift
    · rename_i hmulti
      exact shl_eq hshift (by have := shifted_credit_lt hs hmulti hcredit; omega)
  rw [tokensFor]
  rw [bind_eq htokens]
  rfl

theorem tokensIn_eq (credit : ℕ) : tokensIn core core.burst credit = some (core.tokensIn credit) := by
  rw [tokensIn, Core.tokensIn]
  split
  · rfl
  · rename_i hshort
    exact tokensFor_eq hs (not_le.mp hshort)

theorem waitUntil_eq {target : ℕ} (htarget : target ≤ maxValue 64) (now : Duration) :
    waitUntil core target now = some (core.waitUntil target now) := by
  have hhigh : core.rateInt * 2 ^ 64 < 2 ^ 128 := by
    have := hs.rateInt_lt
    omega
  have htargetLt := (lt_two_pow_iff_le_maxValue 64 _).mpr htarget
  have hoffset : (target - ORIGIN) * 2 ^ 64 < 2 ^ 64 * 2 ^ 64 :=
    Nat.mul_lt_mul_of_pos_right (lt_of_le_of_lt (Nat.sub_le _ _) htargetLt) (by positivity)
  rw [← pow_add] at hoffset
  have hrate : shiftLeft 128 core.rateInt 64 ||| core.rateFrac = core.rate := by
    rw [shiftLeft_eq_mul (by decide) hhigh, Core.rate, Nat.shiftLeft_eq]
  have hdue : shiftLeft 128 (target - ORIGIN) 64 ⌈/⌉ core.rate = core.dueNanos target := by
    rw [shiftLeft_eq_mul (by decide) hoffset, dueNanos, Nat.shiftLeft_eq]
  rw [waitUntil, bind_eq (shl_eq (by decide) hhigh), bind_eq (shl_eq (by decide) hoffset), hrate,
    bind_eq (divCeil_eq hs.rate_pos), hdue, Core.waitUntil]
  dsimp only
  split
  · rfl
  · -- a wait for something due in range is in range, in milliseconds all the more
    have hmillis : (core.dueNanos target - durationNanos now) ⌈/⌉ NANOS_PER_MILLI ≤ maxValue 64 := by
      rw [ceilDiv_le_iff_le_mul (by decide)]
      unfold NANOS_PER_MILLI
      omega
    rw [bind_eq (divCeil_eq (by decide)), bind_eq (tryFrom_of_le hmillis), tryFrom_of_le hmillis,
      Option.getD_some]
    rfl

end Conversions

end BetterBucket.Checked

import BetterBucket.Protocol.Decisions
import BetterBucket.Contract.FrozenReading

/-!
# The initial fill

A new bucket is charged the price of its initial tokens.  Where a unit is several tokens the price is
rounded up, and the bucket starts with more than it was given.
-/

namespace BetterBucket.Core

open CasLoop MachineWords

/-- A unit is at most one token, or the initial tokens are whole units, or a full bucket is at most
one unit and starts full. -/
def FillExact (config : BucketConfig) : Prop :=
  10 * config.refillAmount ≤ 43 * config.refillPeriod.asNanos ∨
    (new config).grain ∣ config.initial ∨
    config.initial = config.capacity ∧ config.capacity ≤ (new config).grain

instance (config : BucketConfig) : Decidable (FillExact config) :=
  inferInstanceAs (Decidable (_ ∨ _ ∨ _))

variable {config : BucketConfig}

/-- A new bucket has the price of its initial tokens to spend. -/
theorem credit_start (h : config.Valid) (t : Duration) :
    (new config).credit (start config t) t = (new config).cost config.initial := by
  have hcost := cost_le_burst h config.initial_le
  have hburst := burst_lt_units h t
  rw [credit, base, start, min_eq_left config.initial_le]
  omega

theorem availableIn_start (h : config.Valid) (t : Duration) :
    (new config).availableIn (start config t) t =
      (new config).tokensIn ((new config).cost config.initial) := by
  rw [availableIn_eq, credit_start h]

/-- The price of the initial tokens buys just them. -/
theorem tokensIn_initial (h : config.Valid) (hexact : FillExact config) :
    (new config).tokensIn ((new config).cost config.initial) = config.initial := by
  have hgrain := grain_pos (new config)
  have hle := config.initial_le
  rcases hexact with hrate | hdvd | ⟨hfull, hcoarse⟩
  · have hs := (unitChoice h).nonneg_iff.mpr hrate
    rw [cost_exact h hs hle, tokensIn_exact h hs, Nat.mul_div_cancel _ hgrain, min_eq_left hle]
  · by_cases hs : 0 ≤ (new config).unitShift
    · rw [cost_exact h hs hle, tokensIn_exact h hs, Nat.mul_div_cancel _ hgrain, min_eq_left hle]
    · rw [tokensIn_multi h (not_le.mp hs), cost_mul_grain_of_dvd h (not_le.mp hs) hdvd, min_eq_left hle]
  · rw [hfull]
    exact if_pos le_rfl

/-- Nor does the bucket yield more in pieces. -/
theorem yieldExact_start (h : config.Valid) (hexact : FillExact config) (t : Duration) :
    YieldExact config (start config t) t := by
  have hle := config.initial_le
  rcases hexact with hrate | hdvd | ⟨-, hcoarse⟩
  · exact .inl ((unitChoice h).nonneg_iff.mpr hrate)
  · by_cases hs : 0 ≤ (new config).unitShift
    · exact .inl hs
    · right
      rcases eq_or_lt_of_le hle with hfull | hshort
      · rw [hfull] at hdvd
        exact .inl hdvd
      · -- short of full by at least a unit
        right; right
        have hlt : (new config).cost config.initial < (new config).burst := by
          rw [lt_burst_iff h (not_le.mp hs), cost_mul_grain_of_dvd h (not_le.mp hs) hdvd]
          exact hshort
        have hburst := burst_lt_units h t
        rw [start, min_eq_left hle]
        omega
  · exact .inr (.inr (.inl hcoarse))

/-- Taking what is left at the end takes all of it. -/
theorem granted_rest (h : config.Valid) (c : Call) (word : ℕ) (t : Duration) :
    granted (execAll (new config).program word [c, .acquireUpTo config.capacity t]).1 =
      granted (execAll (new config).program word [c]).1 +
        (new config).availableIn (execAll (new config).program word [c]).2 t := by
  have hrest := (acquireUpTo_agrees h config.capacity (((new config).program c).exec word).2 t).1
  have hle : (new config).availableIn (((new config).program c).exec word).2 t ≤ config.capacity :=
    tokensIn_le h _
  rw [min_eq_right hle] at hrest
  simp only [execAll, granted, List.map_cons, List.map_nil, List.sum_cons, List.sum_nil,
    Nat.add_zero]
  rw [answer] at hrest
  rw [hrest]
  rfl

theorem not_fillExact (h : config.Valid) (hnot : ¬ FillExact config) {t : Duration}
    (havailable : (new config).availableIn (start config t) t = config.initial) :
    ¬ YieldExact config (start config t) t := by
  have hgrain := grain_pos (new config)
  have hcost := cost_le_burst h config.initial_le
  simp only [FillExact, not_or] at hnot
  obtain ⟨hrate, hdvd, hnotfull⟩ := hnot
  have hs : (new config).unitShift < 0 := not_le.mp (mt (unitChoice h).nonneg_iff.mp hrate)
  rw [availableIn_start h, tokensIn_multi h hs] at havailable
  -- the rounded price is worth more than it should, so only the capacity can have hidden it
  have hprice : config.initial ≤ (new config).cost config.initial * (new config).grain := by
    rw [cost_multi h hs]
    exact Scale.le_ceilDiv_mul hgrain
  have hne : config.initial ≠ (new config).cost config.initial * (new config).grain :=
    fun heq => hdvd ⟨(new config).cost config.initial, by rw [Nat.mul_comm]; exact heq⟩
  have hfull : config.initial = config.capacity := by omega
  rw [hfull] at hdvd hnotfull
  have hburst := burst_lt_units h t
  have hstart : start config t = (new config).units t - (new config).burst := by
    rw [start, min_eq_left config.initial_le, hfull]
    rfl
  simp only [YieldExact, not_or, not_le, not_lt]
  refine ⟨hs, hdvd, not_le.mp fun hle => hnotfull ⟨rfl, hle⟩, ?_⟩
  rw [hstart]
  omega

/-- A new bucket shows its initial tokens and grants no more of them at its first reading, exactly
when their price is exact. -/
theorem initial_fill_iff (h : config.Valid) (t : Duration) :
    ((new config).answer (.available t) (start config t) = .count config.initial ∧
      ∀ cs : List Call, (∀ c ∈ cs, Immediate t c) →
        granted (execAll (new config).program (start config t) cs).1 ≤ config.initial) ↔
      FillExact config := by
  rw [answer, available_exec h, Answer.count.injEq]
  constructor
  · rintro ⟨havailable, hall⟩
    by_contra hnot
    have hmore := unit_yields_more h (not_fillExact h hnot havailable)
    have hle := hall [.acquire (new config).grain t, .acquireUpTo config.capacity t]
      (by simp [Immediate])
    rw [granted_rest h] at hle
    omega
  · intro hexact
    have havailable : (new config).availableIn (start config t) t = config.initial :=
      (availableIn_start h t).trans (tokensIn_initial h hexact)
    refine ⟨havailable, fun cs hcs => ?_⟩
    have hyield := yield_le h hcs (yieldExact_start h hexact t)
    omega

/-- Four tokens out of six, in pairs. -/
theorem initial_fill_iff_twoPairs :
    (new (pairs 6 4)).answer (.available (.fromMillis 5)) (start (pairs 6 4) (.fromMillis 5)) =
        .count 4 ∧
      ∀ cs : List Call, (∀ c ∈ cs, Immediate (.fromMillis 5) c) →
        granted (execAll (new (pairs 6 4)).program (start (pairs 6 4) (.fromMillis 5)) cs).1 ≤ 4 :=
  (initial_fill_iff (pairs_valid (by decide) 4) (.fromMillis 5)).mpr (by decide +kernel)

/-- One token is given a pair's price, and two are there. -/
theorem oddInitial_holds_more :
    (pairs 4 1).Valid ∧ (pairs 4 1).initial = 1 ∧
      (new (pairs 4 1)).answer (.available .zero) (start (pairs 4 1) .zero) = .count 2 ∧
      granted (execAll (new (pairs 4 1)).program (start (pairs 4 1) .zero) [.acquire 2 .zero]).1 = 2 :=
  ⟨pairs_valid (by decide) 1, by decide, by decide +kernel, by decide +kernel⟩

end BetterBucket.Core

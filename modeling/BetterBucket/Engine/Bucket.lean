import BetterBucket.Engine.Core

/-!
# The bucket

A `Bucket` is the engine and the instant its clock showed when it was built.  Its methods read the
clock once and hand the engine the time elapsed since that instant.  Instants are nanoseconds of
the injected clock; how the clock library measures the time between two of them is a parameter.
-/

namespace BetterBucket

namespace Duration

def fromSecs (secs : ℕ) : Duration := saturating (secs * NANOS_PER_SEC)

end Duration

/-- A Tier-1 request as a configuration: a degenerate one becomes a bucket that grants nothing. -/
def tier1Config (capacity amount : U32) (period : Duration) (initial : U32) : BucketConfig :=
  -- a zero rate is a bucket that never grants, not an error
  if capacity.val = 0 ∨ amount.val = 0 ∨ period.isZero then .raw 0 0 (.fromSecs 1) 0
  else .raw capacity amount period initial

/-- Every proper Tier-1 request is one `BucketConfig.new` accepts. -/
theorem tier1Config_valid {capacity amount initial : U32} {period : Duration}
    (hcap : capacity.val ≠ 0) (hamount : amount.val ≠ 0) (hperiod : period.isZero = false) :
    (tier1Config capacity amount period initial).Valid := by
  refine ⟨capacity, amount, period, initial, ?_⟩
  rw [tier1Config, if_neg (by simp [hcap, hamount, hperiod]), BucketConfig.new, if_neg hcap,
    if_neg hamount, if_neg (by simp [hperiod])]

/-- The bucket that grants nothing. -/
def degenerate : BucketConfig := .raw 0 0 (.fromSecs 1) 0

/-- A Tier-1 constructor builds nothing but a valid configuration or the degenerate one. -/
theorem tier1Config_cases (capacity amount : U32) (period : Duration) (initial : U32) :
    (tier1Config capacity amount period initial).Valid ∨
      tier1Config capacity amount period initial = degenerate := by
  by_cases hproper : capacity.val = 0 ∨ amount.val = 0 ∨ period.isZero
  · right
    rw [tier1Config, if_pos hproper, degenerate]
  · left
    simp only [not_or, Bool.not_eq_true] at hproper
    exact tier1Config_valid hproper.1 hproper.2.1 hproper.2.2

structure Bucket where
  core : Core
  createdAt : ℕ

namespace Bucket

def withConfigAndClock (config : BucketConfig) (now : ℕ) : Bucket := ⟨.new config, now⟩

/-- The word of a bucket that was just built. -/
def start (config : BucketConfig) : ℕ := Core.start config .zero

/-- `config` of `Bucket::per_second`. -/
def perSecond (rate : U32) : BucketConfig := tier1Config rate rate (.fromSecs 1) rate

theorem perSecond_valid {rate : U32} (hrate : rate.val ≠ 0) : (Bucket.perSecond rate).Valid :=
  tier1Config_valid hrate hrate (by decide)

/-- Time since construction, by the clock library's `saturating_duration_since`. -/
def elapsedAt (saturatingDurationSince : ℕ → ℕ → Duration) (self : Bucket) (now : ℕ) : Duration :=
  saturatingDurationSince now self.createdAt

end Bucket

/-- What a bucket relies on of a clock that measures the time from `earlier` to `now`: it is zero up to
`earlier` and never runs back, and saturation only shortens it. -/
structure MeasuresTime (since : ℕ → ℕ → Duration) : Prop where
  monotone : ∀ earlier {a b : ℕ}, a ≤ b → since a earlier ≤ since b earlier
  zero : ∀ {now earlier : ℕ}, now ≤ earlier → since now earlier = .zero
  sub_le : ∀ earlier a b : ℕ, (since b earlier).asNanos - (since a earlier).asNanos ≤ b - a

/-- A clock that counts nanoseconds. -/
def nanosSince (now earlier : ℕ) : Duration := .saturating (now - earlier)

theorem nanosSince_measures : MeasuresTime nanosSince where
  monotone earlier _ _ hab := min_le_min_right _ (Nat.sub_le_sub_right hab earlier)
  zero h := by
    rw [nanosSince, Nat.sub_eq_zero_of_le h]
    rfl
  sub_le earlier a b := by
    unfold nanosSince Duration.saturating
    dsimp only
    omega

/-! ## The trait -/

namespace Decision

def isAllowed : Decision → Bool
  | .allowed => true
  | .denied _ => false

end Decision

/-- `try_acquire`: the acquire, and of its decision only whether it allowed. -/
def Core.tryAcquire (self : Core) (n : ℕ) (now : Duration) : CasLoop.Program ℕ (Exit Bool) :=
  (self.acquire n now).map (Exit.map Decision.isAllowed)

/-- `TokenBucket::time_until` as the trait provides it, on what `available` and `capacity` return. -/
def providedTimeUntil (available capacity n : ℕ) : Option Duration :=
  if n = 0 ∨ available ≥ n then some .zero
  else if n > capacity then none
  -- not now, and no better bound is known
  else some .MAX

end BetterBucket

import BetterBucket.Foundation.MachineWords

/-!
# Durations, configuration and decisions

`Duration` is the standard library's: a `u64` count of seconds and nanoseconds below one second,
kept here as the total number of nanoseconds.  `BucketConfig` only arises through `raw`, so its
bounds are part of the type.
-/

namespace BetterBucket

def NANOS_PER_SEC : ℕ := 1000000000

def NANOS_PER_MILLI : ℕ := 1000000

structure Duration where
  asNanos : ℕ
  asNanos_lt : asNanos < 2 ^ 64 * NANOS_PER_SEC
  deriving DecidableEq

namespace Duration

theorem ext {a b : Duration} (h : a.asNanos = b.asNanos) : a = b := by
  cases a
  cases b
  cases h
  rfl

def zero : Duration := ⟨0, by decide⟩

def MAX : Duration := ⟨2 ^ 64 * NANOS_PER_SEC - 1, by decide⟩

def asSecs (d : Duration) : ℕ := d.asNanos / NANOS_PER_SEC

def subsecNanos (d : Duration) : ℕ := d.asNanos % NANOS_PER_SEC

def isZero (d : Duration) : Bool := d.asNanos == 0

/-- A duration of `nanos` nanoseconds, the longest duration if that is out of range. -/
def saturating (nanos : ℕ) : Duration :=
  ⟨min nanos MAX.asNanos, lt_of_le_of_lt (min_le_right _ _) MAX.asNanos_lt⟩

/-- `Duration::from_millis`: every `u64` is in range. -/
def fromMillis (millis : ℕ) : Duration := saturating (millis * NANOS_PER_MILLI)

instance : LE Duration := ⟨fun a b => a.asNanos ≤ b.asNanos⟩

instance (a b : Duration) : Decidable (a ≤ b) := inferInstanceAs (Decidable (a.asNanos ≤ b.asNanos))

theorem asNanos_le_max (d : Duration) : d.asNanos ≤ MAX.asNanos := by
  have := d.asNanos_lt
  unfold MAX
  dsimp only
  omega

theorem saturating_of_le {nanos : ℕ} (h : nanos ≤ MAX.asNanos) :
    (saturating nanos).asNanos = nanos := min_eq_left h

/-- A `u64` of milliseconds is far inside the range of a duration. -/
theorem fromMillis_asNanos {millis : ℕ} (h : millis < 2 ^ 64) :
    (fromMillis millis).asNanos = millis * NANOS_PER_MILLI := by
  apply saturating_of_le
  unfold MAX NANOS_PER_MILLI NANOS_PER_SEC
  dsimp only
  omega

end Duration

/-- The arguments of a constructor are `u32`. -/
abbrev U32 := Fin (2 ^ 32)

/-- Literals of `U32` are numbers below this one. -/
instance neZeroU32 : NeZero (2 ^ 32) := ⟨by decide⟩

structure BucketConfig where
  capacity : ℕ
  refillAmount : ℕ
  refillPeriod : Duration
  initial : ℕ
  capacity_lt : capacity < 2 ^ 32
  refillAmount_lt : refillAmount < 2 ^ 32
  initial_le : initial ≤ capacity
  deriving DecidableEq

inductive BucketError
  | zeroCapacity
  | zeroRefillAmount
  | zeroRefillPeriod
  deriving DecidableEq

namespace BucketConfig

/-- The unvalidated constructor: `initial` is clamped to the capacity. -/
def raw (capacity refillAmount : U32) (refillPeriod : Duration) (initial : U32) : BucketConfig where
  capacity := capacity
  refillAmount := refillAmount
  refillPeriod := refillPeriod
  -- the minimum, written out because the source's constructor is `const`
  initial := if initial.val < capacity.val then initial else capacity
  capacity_lt := capacity.isLt
  refillAmount_lt := refillAmount.isLt
  initial_le := by split <;> omega

def new (capacity refillAmount : U32) (refillPeriod : Duration) (initial : U32) :
    Except BucketError BucketConfig :=
  if capacity.val = 0 then .error .zeroCapacity
  else if refillAmount.val = 0 then .error .zeroRefillAmount
  else if refillPeriod.isZero then .error .zeroRefillPeriod
  else .ok (raw capacity refillAmount refillPeriod initial)

/-- Accepted by `new`. -/
def Valid (config : BucketConfig) : Prop :=
  ∃ capacity refillAmount refillPeriod initial,
    new capacity refillAmount refillPeriod initial = .ok config

theorem valid_iff (config : BucketConfig) :
    config.Valid ↔ 0 < config.capacity ∧ 0 < config.refillAmount ∧ 0 < config.refillPeriod.asNanos := by
  constructor
  · rintro ⟨capacity, refillAmount, refillPeriod, initial, h⟩
    unfold new at h
    split_ifs at h with hcap hamount hperiod
    cases h
    have hperiod' : refillPeriod.asNanos ≠ 0 := by simpa [Duration.isZero] using hperiod
    simp only [raw]
    omega
  · rintro ⟨hcap, hamount, hperiod⟩
    have hperiod' : config.refillPeriod.isZero = false := by
      simpa [Duration.isZero] using hperiod.ne'
    have hinit := config.initial_le
    refine ⟨⟨config.capacity, config.capacity_lt⟩, ⟨config.refillAmount, config.refillAmount_lt⟩,
      config.refillPeriod, ⟨config.initial, lt_of_le_of_lt hinit config.capacity_lt⟩, ?_⟩
    rw [new, if_neg hcap.ne', if_neg hamount.ne', hperiod', if_neg (by simp)]
    obtain ⟨capacity, refillAmount, refillPeriod, initial, h1, h2, h3⟩ := config
    have hclamp : (if initial < capacity then initial else capacity) = initial := by
      split
      · rfl
      · dsimp only at hinit
        omega
    simp only [raw, hclamp]

end BucketConfig

inductive Decision
  | allowed
  | denied (retryAfter : Duration)
  deriving DecidableEq

end BetterBucket

import BetterBucket.Engine.Bucket

/-!
# Ways to a configuration

The Tier-2 builder, and the configuration an engine gives back.
-/

namespace BetterBucket

namespace Duration

/-- `Duration::new`: whole seconds in `nanos` carry over; `none` where the sum overflows and it
panics. -/
def new (secs nanos : ℕ) : Option Duration :=
  if h : secs * NANOS_PER_SEC + nanos < 2 ^ 64 * NANOS_PER_SEC then some ⟨_, h⟩ else none

theorem new_parts (d : Duration) : new d.asSecs d.subsecNanos = some d := by
  have hparts : d.asSecs * NANOS_PER_SEC + d.subsecNanos = d.asNanos := Nat.div_add_mod' _ _
  rw [new, dif_pos (by rw [hparts]; exact d.asNanos_lt)]
  exact congrArg some (ext hparts)

end Duration

structure BucketBuilder where
  capacity : U32
  refillAmount : U32
  refillPeriod : Duration
  initial : Option U32

namespace BucketBuilder

def new : BucketBuilder := ⟨0, 0, .zero, none⟩

variable (self : BucketBuilder)

/-- `BucketBuilder::capacity`. -/
def setCapacity (capacity : U32) : BucketBuilder := { self with capacity := capacity }

/-- `BucketBuilder::refill`. -/
def setRefill (amount : U32) (period : Duration) : BucketBuilder :=
  { self with refillAmount := amount, refillPeriod := period }

/-- `BucketBuilder::initial`. -/
def setInitial (initial : U32) : BucketBuilder := { self with initial := some initial }

def buildConfig : Except BucketError BucketConfig :=
  let initial := match self.initial with
    | some initial => initial
    | none => self.capacity
  BucketConfig.new self.capacity self.refillAmount self.refillPeriod initial

end BucketBuilder

/-- One call of a builder chain. -/
inductive Setter
  | capacity (capacity : U32)
  | refill (amount : U32) (period : Duration)
  | initial (initial : U32)

def BucketBuilder.set (self : BucketBuilder) : Setter → BucketBuilder
  | .capacity capacity => self.setCapacity capacity
  | .refill amount period => self.setRefill amount period
  | .initial initial => self.setInitial initial

/-- The builder at the end of a chain. -/
def BucketBuilder.chain (setters : List Setter) : BucketBuilder := setters.foldl .set .new

/-! ## The configuration of an engine -/

/-- `Core::config`; the fields hold `u32`s, so nothing is cut. -/
def Core.config (self : Core) : Option BucketConfig :=
  (Duration.new self.periodSecs self.periodNanos).map fun period =>
    .raw (Fin.ofNat _ self.capacity) (Fin.ofNat _ self.refillAmount) period (Fin.ofNat _ self.initial)

/-- `Bucket::with_clock`: a fresh bucket of the same configuration. -/
def Bucket.withClock (self : Bucket) (now : ℕ) : Option Bucket :=
  self.core.config.map fun config => .withConfigAndClock config now

end BetterBucket

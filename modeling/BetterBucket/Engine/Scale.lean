import BetterBucket.Foundation.Descent
import BetterBucket.Engine.Config

/-!
# The unit and the clock rate of a bucket

`Scale.derive`, cut at its `let`s: the two limits on the unit, each found by counting down, the
unit itself, and the rate rounded up.
-/

namespace BetterBucket

open MachineWords

/-- Offset of every instant, in units. -/
def ORIGIN : ℕ := 2 ^ 62

/-- Bits the capacity may occupy, in units. -/
def BURST_BITS : ℤ := 61

def FAST_CLOCK_NUM : ℕ := 43

def FAST_CLOCK_DEN : ℕ := 10

structure Scale where
  rateInt : ℕ
  rateFrac : ℕ
  unitShift : ℤ
  deriving DecidableEq

namespace Scale

/-- Iterations allowed to a search loop; neither comes near it. -/
def loopFuel : ℕ := 128

def below (amount periodNs : ℕ) (m : ℤ) : Bool :=
  -- the side that the exponent makes larger is shifted, so neither drops a bit
  if 0 ≤ m then shiftLeft 128 amount m.natAbs < periodNs
  else amount < shiftLeft 128 periodNs m.natAbs

def fits (amount periodNs : ℕ) (m : ℤ) : Bool :=
  FAST_CLOCK_DEN * amount ≤ shiftLeft 128 (FAST_CLOCK_NUM * periodNs) m.natAbs

def burstLimit (capacity : ℕ) : ℤ := BURST_BITS - bitLength capacity

def clockLimit (amount periodNs : ℕ) : ℤ :=
  let limit := Descent.stepDown (below amount periodNs) loopFuel
    (bitLength periodNs - bitLength amount)
  -- a token a nanosecond or faster: keep whole tokens, or the finest multi-token unit
  if limit < 0 then Descent.stepDown (fits amount periodNs) loopFuel 0 else limit

def deriveShift (capacity amount periodNs : ℕ) : ℤ :=
  min (burstLimit capacity) (clockLimit amount periodNs)

/-- Low bits of a period wider than 64 bits, left out of the division. -/
def drop (periodNs : ℕ) : ℤ := max ((bitLength periodNs : ℤ) - 64) 0

/-- `ceil(amount · 2^(unitShift + 64) / periodNs)`, with the period cut to 64 significant bits. -/
def deriveRate (amount periodNs : ℕ) (unitShift : ℤ) : ℕ :=
  let periodTop := shiftRight 128 periodNs (drop periodNs).natAbs
  let shift := unitShift + 64 - drop periodNs
  shiftLeft 128 amount shift.natAbs ⌈/⌉ periodTop

def derive (capacity amount : ℕ) (period : Duration) : Scale :=
  if capacity = 0 ∨ amount = 0 ∨ period.isZero then
    -- 2^-64 units a nanosecond: frozen
    { rateInt := 0, rateFrac := 1, unitShift := 0 }
  else
    let unitShift := deriveShift capacity amount period.asNanos
    let rate := deriveRate amount period.asNanos unitShift
    { rateInt := (tryFrom 8 (shiftRight 128 rate 64)).getD (maxValue 8)
      rateFrac := (tryFrom 64 (rate &&& maxValue 64)).getD (maxValue 64)
      -- `i8::try_from`
      unitShift := if -128 ≤ unitShift ∧ unitShift ≤ 127 then unitShift else -128 }

-- one token a second, and a multi-token unit: two tokens a unit at five tokens a nanosecond
example : derive 1 1 (.fromMillis 1000) = ⟨0, 9903520314283042200, 29⟩ := by decide +kernel
example : derive 3 5 (.saturating 1) = ⟨2, 9223372036854775808, -1⟩ := by decide +kernel

end Scale

end BetterBucket

import BetterBucket.Engine.Core
import BetterBucket.Foundation.Trapping

/-!
# The engine in arithmetic that traps

The engine a second time, with every plain operator of the source one that traps, every search loop
bounded, and no fallback behind the conversions of `Scale.derive` and `waitUntil`.  The operators the
source itself spells as saturating or checked stay as they are, but for the two subtractions that
are to stay clear of zero: a full bucket, and the price of the initial tokens, from a reading.
-/

namespace BetterBucket.Checked

open MachineWords CasLoop Trapping

/-! ## The unit and the rate -/

/-- Significant bits of a `u128`, as an `i32`. -/
def bits (x : ℕ) : Option ℤ := do
  let significant ← sub 128 (leadingZeros 128 x)
  signed 32 significant

def below (amount periodNs : ℕ) (m : ℤ) : Option Bool :=
  if 0 ≤ m then do
    let scaled ← shl 128 amount m.natAbs
    return scaled < periodNs
  else do
    let scaled ← shl 128 periodNs m.natAbs
    return amount < scaled

def fits (amount periodNs : ℕ) (m : ℤ) : Option Bool := do
  let accrued ← mul 128 FAST_CLOCK_DEN amount
  let limit ← mul 128 FAST_CLOCK_NUM periodNs
  let limit ← shl 128 limit m.natAbs
  return accrued ≤ limit

def burstLimit (capacity : ℕ) : Option ℤ := do
  let capacityBits ← bits capacity
  subSigned 32 BURST_BITS capacityBits

def clockLimit (amount periodNs : ℕ) : Option ℤ := do
  let periodBits ← bits periodNs
  let amountBits ← bits amount
  let start ← subSigned 32 periodBits amountBits
  let limit ← countDown 32 (below amount periodNs) Scale.loopFuel start
  if limit < 0 then countDown 32 (fits amount periodNs) Scale.loopFuel 0
  else return limit

def deriveShift (capacity amount periodNs : ℕ) : Option ℤ := do
  let burstLimit ← burstLimit capacity
  let clockLimit ← clockLimit amount periodNs
  return min burstLimit clockLimit

def deriveRate (amount periodNs : ℕ) (unitShift : ℤ) : Option ℕ := do
  let periodBits ← bits periodNs
  let excess ← subSigned 32 periodBits 64
  let drop := max excess 0
  let periodTop ← shr 128 periodNs drop.natAbs
  let shift ← addSigned 32 unitShift 64
  let shift ← subSigned 32 shift drop
  let numerator ← shl 128 amount shift.natAbs
  divCeil numerator periodTop

def derive (capacity amount : ℕ) (period : Duration) : Option Scale :=
  if capacity = 0 ∨ amount = 0 ∨ period.isZero then
    some { rateInt := 0, rateFrac := 1, unitShift := 0 }
  else do
    let unitShift ← deriveShift capacity amount period.asNanos
    let rate ← deriveRate amount period.asNanos unitShift
    let high ← shr 128 rate 64
    let rateInt ← tryFrom 8 high
    let rateFrac ← tryFrom 64 (rate &&& maxValue 64)
    let unitShift ← signed 8 unitShift
    return { rateInt := rateInt, rateFrac := rateFrac, unitShift := unitShift }

/-! ## The conversions -/

section

variable (self : Core)

def units (now : Duration) : Option ℕ := do
  let ns := durationNanos now
  let product ← mul 128 ns self.rateFrac
  let accrued ← shr 128 product 64
  let accrued ← (
    if self.rateInt ≠ 0 then do
      let whole ← mul 128 ns self.rateInt
      add 128 accrued whole
    else some accrued)
  -- the clock saturates on purpose
  return saturatingAdd 64 ORIGIN ((tryFrom 64 accrued).getD (maxValue 64))

def cost (n : ℕ) : Option ℕ :=
  let shift := self.unitShift.natAbs
  if 0 ≤ self.unitShift then shl 64 n shift
  else if n = 0 then some 0
  else do
    let before ← sub n 1
    let wholes ← shr 64 before shift
    add 64 wholes 1

def burst : Option ℕ := cost self self.capacity

def tokensFor (credit : ℕ) : Option ℕ := do
  let shift := self.unitShift.natAbs
  let tokens ← (if 0 ≤ self.unitShift then shr 64 credit shift else shl 64 credit shift)
  return min ((tryFrom 32 tokens).getD (maxValue 32)) self.capacity

def waitUntil (target : ℕ) (now : Duration) : Option (Option Duration) := do
  let high ← shl 128 self.rateInt 64
  let numerator ← shl 128 (target - ORIGIN) 64
  let dueNs ← divCeil numerator (high ||| self.rateFrac)
  if dueNs > maxValue 64 then return none
  else
    let millis ← divCeil (dueNs - durationNanos now) NANOS_PER_MILLI
    let millis ← tryFrom 64 millis
    return some (.fromMillis millis)

end

/-- The engine, and the word its atomic is created with. -/
def new (config : BucketConfig) (now : Duration) : Option (Core × ℕ) := do
  let rate ← derive config.capacity config.refillAmount config.refillPeriod
  let core : Core :=
    { rateFrac := rate.rateFrac
      periodSecs := config.refillPeriod.asSecs
      capacity := config.capacity
      refillAmount := config.refillAmount
      initial := config.initial
      periodNanos := config.refillPeriod.subsecNanos
      rateInt := rate.rateInt
      unitShift := rate.unitShift }
  let initial ← cost core (min config.initial config.capacity)
  let nowU ← units core now
  let state ← sub nowU initial
  return (core, state)

/-! ## The operations -/

section

variable (self : Core)

def acquire (n : ℕ) (now : Duration) : Option (Guarded ℕ (Exit Decision)) :=
  if n = 0 then some (.ret ⟨.allowed, .allowed 0⟩)
  else if n > self.capacity then some (.ret ⟨.denied .MAX, .denied⟩)
  else do
    let nowU ← units self now
    let cost ← cost self n
    let burst ← burst self
    let floor ← sub nowU burst
    return .loop fun current =>
      match checkedAdd 64 (max current floor) cost with
      | some next =>
        if next ≤ nowU then some (.cas next ⟨.allowed, .allowed n⟩)
        else do
          let wait ← waitUntil self next now
          return .done ⟨.denied (wait.getD .MAX), .denied⟩
      | none => some (.done ⟨.denied .MAX, .denied⟩)

/-- Tokens in a bucket holding `credit` units, where a full bucket holds `burst`. -/
def tokensIn (burst credit : ℕ) : Option ℕ :=
  if credit ≥ burst then some self.capacity else tokensFor self credit

def acquireUpTo (n : ℕ) (now : Duration) : Option (Guarded ℕ (Exit ℕ)) :=
  if n = 0 then some (.ret ⟨0, .allowed 0⟩)
  else do
    let want := min n self.capacity
    let nowU ← units self now
    let burst ← burst self
    let floor ← sub nowU burst
    return .loop fun current => do
      let base := max current floor
      let tokens ← tokensIn self burst (nowU - base)
      let take := min tokens want
      if take = 0 then return .done ⟨0, .denied⟩
      else
        let cost ← cost self take
        return .cas (saturatingAdd 64 base cost) ⟨take, .allowed take⟩

def available (now : Duration) : Option (Guarded ℕ (Exit ℕ)) :=
  if self.capacity = 0 then some (.ret ⟨0, .none⟩)
  else do
    let nowU ← units self now
    let burst ← burst self
    let floor ← sub nowU burst
    return .loop fun current => do
      let tokens ← tokensIn self burst (nowU - max current floor)
      return .done ⟨tokens, .none⟩

def timeUntil (n : ℕ) (now : Duration) : Option (Guarded ℕ (Exit (Option Duration))) :=
  if n = 0 then some (.ret ⟨some .zero, .none⟩)
  else if n > self.capacity then some (.ret ⟨none, .none⟩)
  else do
    let nowU ← units self now
    let burst ← burst self
    let floor ← sub nowU burst
    let cost ← cost self n
    return .loop fun current =>
      match checkedAdd 64 (max current floor) cost with
      | some next =>
        if next ≤ nowU then some (.done ⟨some .zero, .none⟩)
        else do
          let wait ← waitUntil self next now
          return .done ⟨wait, .none⟩
      | none => some (.done ⟨none, .none⟩)

def reserve (n : ℕ) (maxWait now : Duration) : Option (Guarded ℕ (Exit (Option Duration))) :=
  if n = 0 then some (.ret ⟨some .zero, .allowed 0⟩)
  else if n > self.capacity then some (.ret ⟨none, .denied⟩)
  else do
    let nowU ← units self now
    let cost ← cost self n
    let burst ← burst self
    let floor ← sub nowU burst
    return .loop fun current =>
      match checkedAdd 64 (max current floor) cost with
      | none => some (.done ⟨none, .denied⟩)
      | some next => do
        let wait ← (if next ≤ nowU then some (some .zero) else waitUntil self next now)
        match wait.filter fun wait => wait ≤ maxWait with
        | none => return .done ⟨none, .denied⟩
        | some wait => return .cas next ⟨some wait, .allowed n⟩

def refund (n : ℕ) : Option (Guarded ℕ (Exit Unit)) :=
  let n := min n self.capacity
  if n = 0 then some (.ret ⟨(), .none⟩)
  else do
    let cost ← cost self n
    return .loop fun current => some (.cas (current - cost) ⟨(), .none⟩)

def reset (now : Duration) : Option (Guarded ℕ (Exit Unit)) := do
  let nowU ← units self now
  let burst ← burst self
  let next ← sub nowU burst
  return .swap next ⟨(), .none⟩

def program : Call → Option (Guarded ℕ (Exit Answer))
  | .acquire n now => (acquire self n now).map (Guarded.map (Exit.map .decision))
  | .acquireUpTo n now => (acquireUpTo self n now).map (Guarded.map (Exit.map .count))
  | .available now => (available self now).map (Guarded.map (Exit.map .count))
  | .timeUntil n now => (timeUntil self n now).map (Guarded.map (Exit.map .wait))
  | .reserve n maxWait now => (reserve self n maxWait now).map (Guarded.map (Exit.map .wait))
  | .refund n => (refund self n).map (Guarded.map (Exit.map fun _ => .unit))
  | .reset now => (reset self now).map (Guarded.map (Exit.map fun _ => .unit))

end

end BetterBucket.Checked

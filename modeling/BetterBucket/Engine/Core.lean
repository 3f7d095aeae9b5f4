import BetterBucket.Engine.Scale
import BetterBucket.Foundation.CasLoop

/-!
# The accounting engine

`Core` is what a bucket never changes after construction; the atomic word beside it is created
holding `Core.start` and is the shared word of `CasLoop`.  Each operation is the program it runs on
that word.  An exit carries its decision counter update next to its value.
-/

namespace BetterBucket

open MachineWords CasLoop

/-- Saturating nanoseconds in a duration. -/
def durationNanos (d : Duration) : ℕ :=
  saturatingAdd 64 (saturatingMul 64 d.asSecs NANOS_PER_SEC) d.subsecNanos

/-- The counter update made on the way out, behind the `metrics` feature. -/
inductive Record
  | none
  | allowed (tokens : ℕ)
  | denied
  deriving DecidableEq

structure Exit (α : Type) where
  value : α
  record : Record
  deriving DecidableEq

structure Core where
  rateFrac : ℕ
  periodSecs : ℕ
  capacity : ℕ
  refillAmount : ℕ
  initial : ℕ
  periodNanos : ℕ
  rateInt : ℕ
  unitShift : ℤ
  deriving DecidableEq

namespace Core

def new (config : BucketConfig) : Core :=
  let rate := Scale.derive config.capacity config.refillAmount config.refillPeriod
  { rateFrac := rate.rateFrac
    periodSecs := config.refillPeriod.asSecs
    capacity := config.capacity
    refillAmount := config.refillAmount
    initial := config.initial
    periodNanos := config.refillPeriod.subsecNanos
    rateInt := rate.rateInt
    unitShift := rate.unitShift }

variable (self : Core)

/-- The clock reading `now` as an instant in units. -/
def units (now : Duration) : ℕ :=
  let ns := durationNanos now
  -- the high word of one 64×64-bit product
  let accrued := shiftRight 128 (ns * self.rateFrac) 64
  -- one product more for rates of a unit a nanosecond and above
  let accrued := if self.rateInt ≠ 0 then accrued + ns * self.rateInt else accrued
  saturatingAdd 64 ORIGIN ((tryFrom 64 accrued).getD (maxValue 64))

/-- Units that `n` tokens cost. -/
def cost (n : ℕ) : ℕ :=
  let shift := self.unitShift.natAbs
  if 0 ≤ self.unitShift then shiftLeft 64 n shift
  -- several tokens a unit: up to whole units
  else if n = 0 then 0
  else shiftRight 64 (n - 1) shift + 1

/-- Units in a full bucket. -/
def burst : ℕ := self.cost self.capacity

/-- Whole tokens bought by `credit` units. -/
def tokensFor (credit : ℕ) : ℕ :=
  let shift := self.unitShift.natAbs
  let tokens := if 0 ≤ self.unitShift then shiftRight 64 credit shift else shiftLeft 64 credit shift
  min ((tryFrom 32 tokens).getD (maxValue 32)) self.capacity

/-- The word the atomic is created with, by the constructor called at `now`. -/
def start (config : BucketConfig) (now : Duration) : ℕ :=
  (new config).units now - (new config).cost (min config.initial config.capacity)

/-- The rate in `Q64` units a nanosecond. -/
def rate : ℕ := self.rateInt <<< 64 ||| self.rateFrac

/-- The first reading, in nanoseconds, at which the clock has reached `target`. -/
def dueNanos (target : ℕ) : ℕ := ((target - ORIGIN) <<< 64) ⌈/⌉ self.rate

/-- The wait from `now` until the clock reaches `target`, rounded up to the millisecond. -/
def waitUntil (target : ℕ) (now : Duration) : Option Duration :=
  let dueNs := self.dueNanos target
  -- readings saturate, so anything later never arrives
  if dueNs > maxValue 64 then none
  else
    let waitNs := dueNs - durationNanos now
    let millis := waitNs ⌈/⌉ NANOS_PER_MILLI
    some (.fromMillis ((tryFrom 64 millis).getD (maxValue 64)))

def acquire (n : ℕ) (now : Duration) : Program ℕ (Exit Decision) :=
  if n = 0 then .ret ⟨.allowed, .allowed 0⟩
  -- more than a full bucket is never granted
  else if n > self.capacity then .ret ⟨.denied .MAX, .denied⟩
  else
    let nowU := self.units now
    let cost := self.cost n
    let floor := nowU - self.burst
    .loop fun current =>
      match checkedAdd 64 (max current floor) cost with
      | some next =>
        if next ≤ nowU then .cas next ⟨.allowed, .allowed n⟩
        -- a denial writes nothing
        else .done ⟨.denied ((self.waitUntil next now).getD .MAX), .denied⟩
      -- the charge lands past the end of the clock's range
      | none => .done ⟨.denied .MAX, .denied⟩

/-- Tokens in a bucket holding `credit` units; a full bucket holds exactly its capacity. -/
def tokensIn (credit : ℕ) : ℕ :=
  if credit ≥ self.burst then self.capacity else self.tokensFor credit

def acquireUpTo (n : ℕ) (now : Duration) : Program ℕ (Exit ℕ) :=
  if n = 0 then .ret ⟨0, .allowed 0⟩
  else
    let want := min n self.capacity
    let nowU := self.units now
    let floor := nowU - self.burst
    .loop fun current =>
      let base := max current floor
      let credit := nowU - base
      let take := min (self.tokensIn credit) want
      -- nothing there: denied without a write
      if take = 0 then .done ⟨0, .denied⟩
      else .cas (saturatingAdd 64 base (self.cost take)) ⟨take, .allowed take⟩

/-- What `available` computes from the word it loads. -/
def availableIn (current : ℕ) (now : Duration) : ℕ :=
  let nowU := self.units now
  let base := max current (nowU - self.burst)
  self.tokensIn (nowU - base)

def available (now : Duration) : Program ℕ (Exit ℕ) :=
  if self.capacity = 0 then .ret ⟨0, .none⟩
  else .loop fun current => .done ⟨self.availableIn current now, .none⟩

def timeUntil (n : ℕ) (now : Duration) : Program ℕ (Exit (Option Duration)) :=
  if n = 0 then .ret ⟨some .zero, .none⟩
  else if n > self.capacity then .ret ⟨none, .none⟩
  else
    let nowU := self.units now
    .loop fun current =>
      match checkedAdd 64 (max current (nowU - self.burst)) (self.cost n) with
      | some next => .done ⟨if next ≤ nowU then some .zero else self.waitUntil next now, .none⟩
      -- past the end of the clock there is no such wait
      | none => .done ⟨none, .none⟩

def reserve (n : ℕ) (maxWait now : Duration) : Program ℕ (Exit (Option Duration)) :=
  if n = 0 then .ret ⟨some .zero, .allowed 0⟩
  else if n > self.capacity then .ret ⟨none, .denied⟩
  else
    let nowU := self.units now
    let cost := self.cost n
    let floor := nowU - self.burst
    .loop fun current =>
      match checkedAdd 64 (max current floor) cost with
      | none => .done ⟨none, .denied⟩
      | some next =>
        -- a reservation may charge past its reading, as far as its caller is ready to wait
        let wait := if next ≤ nowU then some .zero else self.waitUntil next now
        match wait.filter fun wait => wait ≤ maxWait with
        | none => .done ⟨none, .denied⟩
        | some wait => .cas next ⟨some wait, .allowed n⟩

def refund (n : ℕ) : Program ℕ (Exit Unit) :=
  let n := min n self.capacity
  if n = 0 then .ret ⟨(), .none⟩
  else
    let cost := self.cost n
    -- below zero the word stops; no reading is that early
    .loop fun current => .cas (current - cost) ⟨(), .none⟩

def reset (now : Duration) : Program ℕ (Exit Unit) :=
  .swap (self.units now - self.burst) ⟨(), .none⟩

end Core

/-! ## Calls

One type for the seven operations, with their arguments, and one for their results. -/

inductive Call
  | acquire (n : ℕ) (now : Duration)
  | acquireUpTo (n : ℕ) (now : Duration)
  | available (now : Duration)
  | timeUntil (n : ℕ) (now : Duration)
  | reserve (n : ℕ) (maxWait now : Duration)
  | refund (n : ℕ)
  | reset (now : Duration)
  deriving DecidableEq

inductive Answer
  | decision (d : Decision)
  | count (tokens : ℕ)
  | wait (w : Option Duration)
  | unit
  deriving DecidableEq

/-- The answer of a request that is refused for good, or granted nothing. -/
def Answer.Refused : Answer → Prop
  | .decision d => d = .denied .MAX
  | .count tokens => tokens = 0
  | .wait w => w = none
  | .unit => False

def Exit.map {α β : Type} (f : α → β) (e : Exit α) : Exit β := ⟨f e.value, e.record⟩

def Core.program (self : Core) : Call → Program ℕ (Exit Answer)
  | .acquire n now => (self.acquire n now).map (Exit.map .decision)
  | .acquireUpTo n now => (self.acquireUpTo n now).map (Exit.map .count)
  | .available now => (self.available now).map (Exit.map .count)
  | .timeUntil n now => (self.timeUntil n now).map (Exit.map .wait)
  | .reserve n maxWait now => (self.reserve n maxWait now).map (Exit.map .wait)
  | .refund n => (self.refund n).map (Exit.map fun _ => .unit)
  | .reset now => (self.reset now).map (Exit.map fun _ => .unit)

namespace Call

/-- The clock reading of a call; a refund takes none. -/
def reading : Call → Option Duration
  | .acquire _ now => some now
  | .acquireUpTo _ now => some now
  | .available now => some now
  | .timeUntil _ now => some now
  | .reserve _ _ now => some now
  | .refund _ => none
  | .reset now => some now

def readingNanos (c : Call) : ℕ := (c.reading.map Duration.asNanos).getD 0

/-- Tokens a call asks for. -/
def requested : Call → ℕ
  | .acquire n _ => n
  | .acquireUpTo n _ => n
  | .reserve n _ _ => n
  | _ => 0

/-- Tokens a call with this answer has taken. -/
def taken : Call → Answer → ℕ
  | .acquire n _, .decision .allowed => n
  | .acquireUpTo _ _, .count tokens => tokens
  | .reserve n _ _, .wait (some _) => n
  | _, _ => 0

/-- Tokens a call returns to a bucket of this capacity. -/
def refunded (capacity : ℕ) : Call → ℕ
  | .refund n => min n capacity
  | _ => 0

/-- The wait a call with this answer was told, zero for all but a reservation. -/
def waited : Call → Answer → ℕ
  | .reserve _ _ _, .wait (some w) => w.asNanos
  | _, _ => 0

/-- A call that takes tokens it can have at once. -/
def isAcquire : Call → Bool
  | .acquire _ _ => true
  | .acquireUpTo _ _ => true
  | _ => false

def isRefund : Call → Bool
  | .refund _ => true
  | _ => false

def isReset : Call → Bool
  | .reset _ => true
  | _ => false

variable {c : Call}

theorem isRefund_of_isAcquire (h : c.isAcquire = true) : c.isRefund = false := by
  cases c with
  | refund n => cases h
  | _ => rfl

theorem isReset_of_isAcquire (h : c.isAcquire = true) : c.isReset = false := by
  cases c with
  | reset now => cases h
  | _ => rfl

theorem isRefund_of_isReset (h : c.isReset = true) : c.isRefund = false := by
  cases c with
  | refund n => cases h
  | _ => rfl

theorem eq_refund_of_isRefund (h : c.isRefund = true) : ∃ n, c = .refund n := by
  cases c with
  | refund n => exact ⟨n, rfl⟩
  | _ => cases h

theorem eq_reset_of_isReset (h : c.isReset = true) : ∃ now, c = .reset now := by
  cases c with
  | reset now => exact ⟨now, rfl⟩
  | _ => cases h

/-- Every call but a refund reads the clock. -/
theorem reading_of_not_refund (h : c.isRefund = false) : ∃ t, c.reading = some t := by
  cases c with
  | refund n => cases h
  | _ => exact ⟨_, rfl⟩

theorem refunded_of_not_refund (h : c.isRefund = false) (capacity : ℕ) : c.refunded capacity = 0 := by
  cases c with
  | refund n => cases h
  | _ => rfl

theorem waited_of_isAcquire (h : c.isAcquire = true) (a : Answer) : c.waited a = 0 := by
  cases c with
  | reserve n maxWait now => cases h
  | _ => rfl

theorem taken_of_isReset (h : c.isReset = true) (a : Answer) : c.taken a = 0 := by
  obtain ⟨now, rfl⟩ := eq_reset_of_isReset h
  rfl

end Call

end BetterBucket

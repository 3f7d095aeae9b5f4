import BetterBucket.Arithmetic.Slack
import BetterBucket.Engine.Bucket
import BetterBucket.Foundation.Schedule
import BetterBucket.Protocol.Ledger

/-!
# Reservations at the end of their waits

Tokens count when their caller acts on them.  A wait is rounded up to the millisecond, which moves
tokens due at different instants to the same one; the window bound holds in the runs where every
committed reservation is covered at once or due a whole number of milliseconds after its reading.
-/

namespace BetterBucket.Core

open CasLoop MachineWords

variable {T : Type*}

/-- Run on this word, the call's wait needs no rounding: what it reserves is there, or due a whole
number of milliseconds after its reading. -/
def DueOnMilli (self : Core) (word : ℕ) : Call → Prop
  | .reserve n _ now =>
    self.base word now + self.cost n ≤ self.units now ∨
      NANOS_PER_MILLI ∣ self.dueNanos (self.base word now + self.cost n) - durationNanos now
  | _ => True

instance (self : Core) (word : ℕ) : ∀ call, Decidable (self.DueOnMilli word call)
  | .reserve _ _ _ => inferInstanceAs (Decidable (_ ∨ _))
  | .acquire _ _ | .acquireUpTo _ _ | .available _ | .timeUntil _ _ | .refund _ | .reset _ =>
    isTrue trivial

variable {config : BucketConfig} {w : Entry T}

/-- Entries that end at `a` or later charge a word that is full no earlier than `a`, give or take
the nanosecond before it. -/
theorem read_le_charged (h : config.Valid) (hw : (new config).Logged w)
    (hdue : (new config).DueOnMilli w.before w.call) (hrefund : w.call.isRefund = false)
    (hreset : w.call.isReset = false) {a : ℕ} (ha : a ≤ w.ends) :
    min ((new config).clock.read a) ((new config).clock.read (a - 1) + 1) ≤
      (new config).charged w + (new config).burst := by
  have hgrant := grant_of_call h hw hrefund hreset
  have hcost := cost_le_burst h hgrant.taken_le
  have hafter := hgrant.after_eq
  by_cases hwait : w.ends = w.starts
  · -- acted on at once: the entry ends where its reading clamps the word
    have hfloor : (new config).clock.read w.starts - (new config).burst ≤ (new config).charged w :=
      le_max_right _ _
    have hread := (new config).clock.read_mono (hwait ▸ ha)
    omega
  · have heffect := effect_of_write hw
    generalize hcall : w.call = call at heffect hdue hrefund hreset
    generalize hvalue : w.result.value = answer at heffect
    generalize hword : w.after = word at heffect
    cases heffect with
    | acquire => exact absurd (by rw [Entry.ends, hcall, hvalue]; rfl) hwait
    | acquireUpTo => exact absurd (by rw [Entry.ends, hcall, hvalue]; rfl) hwait
    | refund => cases hrefund
    | reset => cases hreset
    | @reserve n maxWait now wait hpos hcap hrange hmax hsome =>
      have hreading : w.call.reading = some now := by rw [hcall]; rfl
      have hends : w.ends = now.asNanos + wait.asNanos := by
        rw [ends_eq hreading, hcall, hvalue]
        rfl
      have hstarts : w.starts = now.asNanos := by
        rw [Entry.starts, Call.readingNanos, hreading]
        rfl
      rw [hends] at ha
      rw [hends, hstarts] at hwait
      split at hsome
      · simp only [Option.some.injEq] at hsome
        subst hsome
        exact absurd rfl hwait
      · -- the wait needs no rounding, so its last nanosecond is still short of the charge
        rename_i hlate
        rw [DueOnMilli, or_iff_right hlate, dueNanos_eq] at hdue
        obtain ⟨hpositive, hbefore⟩ := read_lt_of_waitUntil h hrange hsome (not_le.mp hlate) hdue
        have hmono : (new config).clock.read (a - 1) ≤
            (new config).clock.read (now.asNanos + wait.asNanos - 1) :=
          (new config).clock.read_mono (by omega)
        omega

variable [DecidableEq T] {loads : Loads} {es : List (Event T Call ℕ (Exit Answer))}
  {s : State T Call ℕ}

/-- What callers act on inside `[a, b]` fits the capacity and the refill of the window, in every run
whose waits need no rounding. -/
theorem acted_within_le (h : config.Valid) {t0 : Duration}
    (hrun : Run loads (new config).program (State.start (start config t0)) es s)
    (hcalls : ∀ c ∈ calls es, c.isRefund = false ∧ c.isReset = false)
    (hdue : ∀ w ∈ writes es, (new config).DueOnMilli w.before w.call) {a b : ℕ} (hab : a ≤ b) :
    (taken ((writes es).filter fun w : Entry T => a ≤ w.ends ∧ w.ends ≤ b) : ℚ) ≤
      config.capacity + config.accrued ((b : ℚ) - a + 4) + resolution := by
  have hlog : ∀ w ∈ writes es, w.call.isRefund = false ∧ w.call.isReset = false :=
    fun w hw => hcalls w.call (hrun.write_invoked hw)
  have hfit := linked_inside_le h hrun.linked (fun w => a ≤ w.ends ∧ w.ends ≤ b)
    (min ((new config).clock.read a) ((new config).clock.read (a - 1) + 1)) ((new config).clock.read b)
    hlog
    (fun w hw hin => read_le_charged h (hrun.linked.write?_of_mem hw) (hdue w hw) (hlog w hw).1
      (hlog w hw).2 hin.1)
    (fun w hw hin => (grant_of_call h (hrun.linked.write?_of_mem hw) (hlog w hw).1
      (hlog w hw).2).covered.trans ((new config).clock.read_mono hin.2))
  set inside := taken ((writes es).filter fun w : Entry T => a ≤ w.ends ∧ w.ends ≤ b)
  have hburst : (new config).cost config.capacity = (new config).burst := rfl
  have habQ : (a : ℚ) ≤ b := by exact_mod_cast hab
  -- nothing was acted on inside, or the takes fit between the two ends
  rcases hfit with hzero | hle
  · rw [hzero, Nat.cast_zero]
    exact config.allowance_nonneg hab
  · rcases min_choice ((new config).clock.read a) ((new config).clock.read (a - 1) + 1) with hmin | hmin
    · rw [hmin] at hle
      have hbound : (inside : ℚ) ≤ _ :=
        tokens_le_of_read h le_rfl (a := a) (b := b) (by rw [hburst]; linarith)
      rwa [max_eq_right (by linarith)] at hbound
    · -- the clock had not yet counted the last nanosecond before the window
      have hpos : 1 ≤ a := by
        by_contra hzero
        obtain rfl : a = 0 := by omega
        have hfirst : min ((new config).clock.read 0) ((new config).clock.read 0 + 1) =
            (new config).clock.read 0 + 1 := hmin
        omega
      rw [hmin] at hle
      obtain ⟨ticks, hnonneg, hticks, hspan, hgap⟩ := (new config).read_gap (a - 1) b
      have hpred : ((a - 1 : ℕ) : ℚ) = a - 1 := by rw [Nat.cast_sub hpos, Nat.cast_one]
      rw [hpred, max_eq_right (by linarith)] at hspan
      push_cast at hle
      have hbound : (inside : ℚ) ≤ _ := tokens_le_of_units_lt h le_rfl hnonneg (by linarith) le_rfl
        zero_le_one (by rw [hburst]; linarith)
      have hmono := config.accrued_mono (by linarith : ticks + 3 + 0 ≤ (b : ℚ) - a + 4)
      linarith

/-- A token every two milliseconds for one caller, who takes one and reserves the next. -/
def evenReservations : List (Event ℕ Call ℕ (Exit Answer)) × State ℕ Call ℕ :=
  State.play (new (.raw 1 1 (.fromMillis 2) 1)).program
    (State.start (start (.raw 1 1 (.fromMillis 2) 1) .zero))
    [.call 0 (.acquire 1 .zero), .advance 0, .advance 0,
      .call 0 (.reserve 1 .MAX .zero), .advance 0, .advance 0]

theorem acted_within_le_evenReservations :
    (2 : ℚ) ≤ 1 + (BucketConfig.raw 1 1 (.fromMillis 2) 1).accrued ((2000000 : ℕ) - (0 : ℕ) + 4) +
      resolution := by
  have hrun : Run .current (new (.raw 1 1 (.fromMillis 2) 1)).program
      (State.start (start (.raw 1 1 (.fromMillis 2) 1) .zero)) evenReservations.1
      evenReservations.2 := State.play_run _ _ _
  have hbound := acted_within_le ((BucketConfig.valid_iff _).mpr (by decide)) hrun
    (by decide +kernel) (by decide +kernel) (Nat.zero_le 2000000)
  have htaken : taken ((writes evenReservations.1).filter fun w : Entry ℕ =>
      0 ≤ w.ends ∧ w.ends ≤ 2000000) = 2 := by decide +kernel
  have hcap : (BucketConfig.raw 1 1 (.fromMillis 2) 1).capacity = 1 := rfl
  rw [htaken, hcap] at hbound
  exact_mod_cast hbound

/-- A token a microsecond, an empty bucket, and two reservations at one reading. -/
def crowdedReservations : List (Event ℕ Call ℕ (Exit Answer)) × State ℕ Call ℕ :=
  State.play (new (.raw 1 1 (.saturating 1000) 0)).program
    (State.start (start (.raw 1 1 (.saturating 1000) 0) .zero))
    [.call 0 (.reserve 1 .MAX .zero), .advance 0, .advance 0,
      .call 0 (.reserve 1 .MAX .zero), .advance 0, .advance 0]

/-- Due a microsecond apart, both are told to wait one millisecond, and both act at its end. -/
theorem crowdedReservations_over_commit :
    (BucketConfig.raw 1 1 (.saturating 1000) 0).Valid ∧
      Run .current (new (.raw 1 1 (.saturating 1000) 0)).program
        (State.start (start (.raw 1 1 (.saturating 1000) 0) .zero)) crowdedReservations.1
        crowdedReservations.2 ∧
      (∀ c ∈ calls crowdedReservations.1, c = .reserve 1 .MAX .zero) ∧
      ∃ a b : ℕ, a ≤ b ∧ (BucketConfig.raw 1 1 (.saturating 1000) 0).capacity +
          (BucketConfig.raw 1 1 (.saturating 1000) 0).accrued ((b : ℚ) - a + 4) + resolution <
        taken ((writes crowdedReservations.1).filter fun w : Entry ℕ => a ≤ w.ends ∧ w.ends ≤ b) := by
  refine ⟨(BucketConfig.valid_iff _).mpr (by decide), State.play_run _ _ _, by decide +kernel,
    1000000, 1000000, le_rfl, ?_⟩
  have htaken : taken ((writes crowdedReservations.1).filter fun w : Entry ℕ =>
      1000000 ≤ w.ends ∧ w.ends ≤ 1000000) = 2 := by decide +kernel
  have hcap : (BucketConfig.raw 1 1 (.saturating 1000) 0).capacity = 1 := rfl
  have hamount : (BucketConfig.raw 1 1 (.saturating 1000) 0).refillAmount = 1 := rfl
  have hperiod : (BucketConfig.raw 1 1 (.saturating 1000) 0).refillPeriod.asNanos = 1000 := rfl
  rw [htaken, hcap, BucketConfig.accrued, hamount, hperiod, resolution]
  norm_num

end BetterBucket.Core

import BetterBucket.Engine.Bucket
import BetterBucket.Foundation.Instants
import BetterBucket.Protocol.Ledger

/-!
# Runs of a bucket under one clock

Every step happens at an instant of one monotone clock, which measures the time since the bucket was
built by `since`, and every call reads that clock once, when it is invoked.  A call may then be
overtaken, so what it commits is dated by another instant.
-/

namespace BetterBucket

open CasLoop

variable {T : Type*} [DecidableEq T]

structure ClockedRun (loads : Loads) (config : BucketConfig) (since : ℕ → ℕ → Duration) (createdAt : ℕ)
    (instant : ℕ → ℕ) (es : List (Event T Call ℕ (Exit Answer))) (s : State T Call ℕ) : Prop where
  measures : MeasuresTime since
  monotone : Monotone instant
  created : ∀ k, createdAt ≤ instant k
  run : Run loads (Core.new config).program (State.start (Bucket.start config)) es s
  stamped : Stamped Call.reading
    (fun k => (Bucket.withConfigAndClock config createdAt).elapsedAt since (instant k)) es

/-- The time a bucket built at `createdAt` sees at an instant, in nanoseconds. -/
def elapsedNanos (config : BucketConfig) (since : ℕ → ℕ → Duration) (createdAt now : ℕ) : ℕ :=
  ((Bucket.withConfigAndClock config createdAt).elapsedAt since now).asNanos

namespace MeasuresTime

variable {since : ℕ → ℕ → Duration}

theorem elapsedNanos_mono (h : MeasuresTime since) (config : BucketConfig) (createdAt : ℕ) {a b : ℕ}
    (hab : a ≤ b) : elapsedNanos config since createdAt a ≤ elapsedNanos config since createdAt b :=
  h.monotone createdAt hab

theorem elapsedNanos_createdAt (h : MeasuresTime since) (config : BucketConfig) (createdAt : ℕ) :
    elapsedNanos config since createdAt createdAt = 0 :=
  congrArg Duration.asNanos (h.zero le_rfl)

/-- A bucket never sees more time pass than its clock does. -/
theorem elapsedNanos_sub_le (h : MeasuresTime since) (config : BucketConfig) (createdAt : ℕ) {a b : ℕ}
    (hab : a ≤ b) :
    max 0 ((elapsedNanos config since createdAt b : ℚ) - elapsedNanos config since createdAt a) ≤
      (b : ℚ) - a := by
  have hle : elapsedNanos config since createdAt b - elapsedNanos config since createdAt a ≤ b - a :=
    h.sub_le createdAt a b
  have hadd : elapsedNanos config since createdAt b + a ≤ b + elapsedNanos config since createdAt a := by
    omega
  have haddQ : (elapsedNanos config since createdAt b : ℚ) + a ≤
      b + elapsedNanos config since createdAt a := by
    exact_mod_cast hadd
  have habQ : (a : ℚ) ≤ b := by exact_mod_cast hab
  exact max_le (by linarith) (by linarith)

end MeasuresTime

namespace ClockedRun

variable {loads : Loads} {config : BucketConfig} {since : ℕ → ℕ → Duration} {createdAt : ℕ}
  {instant : ℕ → ℕ} {es : List (Event T Call ℕ (Exit Answer))} {s : State T Call ℕ} {w : Entry T}

/-- A call commits no earlier than it read the clock. -/
theorem starts_le (h : ClockedRun loads config since createdAt instant es s) (hw : w ∈ writes es) :
    w.starts ≤ elapsedNanos config since createdAt (instant w.effect) := by
  rw [Entry.starts, Call.readingNanos]
  cases hreading : w.call.reading with
  | none => exact Nat.zero_le _
  -- the reading is the one of the invocation, which is an earlier step
  | some now =>
    obtain ⟨rfl, hlt⟩ := h.run.write_reading h.stamped hw hreading
    exact h.measures.elapsedNanos_mono config createdAt (h.monotone hlt.le)

theorem after_le (h : ClockedRun loads config since createdAt instant es s) (hvalid : config.Valid)
    (hw : w ∈ writes es) (hcall : w.call.isAcquire = true ∨ w.call.isReset = true) :
    w.after ≤ (Core.new config).clock.read (elapsedNanos config since createdAt (instant w.effect)) := by
  have hread := (Core.new config).clock.read_mono (h.starts_le hw)
  have hwrite := h.run.linked.write?_of_mem hw
  rcases Core.entry_cases hvalid hwrite with hgrant | ⟨n, hrefund, -⟩ | ⟨now, hreset, -, hafter⟩
  · have hacquire : w.call.isAcquire = true :=
      hcall.resolve_right (by rw [hgrant.not_reset]; exact Bool.false_ne_true)
    have hends : w.ends = w.starts := by
      rw [Entry.ends, Call.waited_of_isAcquire hacquire, Nat.add_zero]
    exact (hends ▸ hgrant.covered).trans hread
  · have hnot := hcall.elim Call.isRefund_of_isAcquire Call.isRefund_of_isReset
    rw [hrefund] at hnot
    cases hnot
  · -- a reset leaves a word a burst before its reading
    have hstarts : w.starts = now.asNanos := by
      rw [Entry.starts, hreset, Call.readingNanos, Call.reading, Option.map_some, Option.getD_some]
    rw [hafter, Core.units_eq hvalid, ← hstarts]
    exact (Nat.sub_le _ _).trans hread

end ClockedRun

end BetterBucket

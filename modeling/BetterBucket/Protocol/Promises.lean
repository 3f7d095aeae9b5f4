import BetterBucket.Protocol.Decisions

/-!
# The instant a wait names

Whoever is told to wait is told the instant the clock covers the request on the word of the moment,
rounded up to the millisecond from the caller's own reading.
-/

namespace BetterBucket.Core

open CasLoop MachineWords ScaledClock

/-- The first reading, in nanoseconds, that covers `n` tokens on `word`. -/
def dueFor (self : Core) (n word : ℕ) : ℕ := self.clock.due (word + self.cost n)

variable {config : BucketConfig} {n m word word' : ℕ} {t w : Duration}

/-- A wait ends no earlier than the request is covered. -/
theorem dueFor_le_of_waitFor (h : config.Valid) (hpos : 0 < n) (hcap : n ≤ config.capacity)
    (hw : (new config).waitFor n word t = some w) :
    word + (new config).cost n ≤ maxValue 64 ∧ (new config).dueFor n word ≤ maxValue 64 ∧
      (new config).dueFor n word ≤ t.asNanos + w.asNanos := by
  by_cases hdue : word + (new config).cost n ≤ (new config).units t
  · have hrange := hdue.trans (units_le h t)
    have hreached := (le_units_iff h hrange t).mp hdue
    exact ⟨hrange, hreached.2, hreached.1.trans (Nat.le_add_right _ _)⟩
  · rw [waitFor_of_late h hpos hcap (not_le.mp hdue)] at hw
    split at hw
    · rename_i hrange
      have hread := le_read_of_waitUntil h hrange hw
      rw [Clock.le_read_iff _ (rateBounds h).pos hrange, le_min_iff] at hread
      exact ⟨hrange, hread.2, hread.1⟩
    · cases hw

/-- A wait that is not zero starts before the request is covered, and ends less than a millisecond
after. -/
theorem lt_dueFor_of_waitFor (h : config.Valid) (hpos : 0 < n) (hcap : n ≤ config.capacity)
    (hw : (new config).waitFor n word t = some w) (hne : w ≠ .zero) :
    t.asNanos < (new config).dueFor n word ∧ NANOS_PER_MILLI ≤ w.asNanos ∧
      t.asNanos + w.asNanos < (new config).dueFor n word + NANOS_PER_MILLI := by
  by_cases hdue : word + (new config).cost n ≤ (new config).units t
  · rw [waitFor_of_due h hcap hdue, Option.some.injEq] at hw
    exact absurd hw.symm hne
  · have hlate := not_le.mp hdue
    rw [waitFor_of_late h hpos hcap hlate] at hw
    split at hw
    · rename_i hrange
      exact ⟨(lt_due_of_units_lt h hrange hw hlate).1, waitUntil_lt h hrange hw hlate⟩
    · cases hw

/-- A request has no wait exactly when no reading covers it. -/
theorem waitFor_eq_none_iff (h : config.Valid) (hpos : 0 < n) (hcap : n ≤ config.capacity) :
    (new config).waitFor n word t = none ↔
      ¬ (word + (new config).cost n ≤ maxValue 64 ∧ (new config).dueFor n word ≤ maxValue 64) := by
  constructor
  · rintro hnone ⟨hrange, hdue⟩
    by_cases hcovered : word + (new config).cost n ≤ (new config).units t
    · rw [waitFor_of_due h hcap hcovered] at hnone
      cases hnone
    · rw [waitFor_of_late h hpos hcap (not_le.mp hcovered), if_pos hrange, waitUntil_eq_none_iff] at hnone
      exact absurd hdue (not_le.mpr hnone)
  · intro hnever
    cases hw : (new config).waitFor n word t with
    | none => rfl
    | some w =>
      have hdue := dueFor_le_of_waitFor h hpos hcap hw
      exact absurd ⟨hdue.1, hdue.2.1⟩ hnever

end BetterBucket.Core

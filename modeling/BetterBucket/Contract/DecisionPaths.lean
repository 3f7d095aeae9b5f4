import BetterBucket.Protocol.Decisions
import BetterBucket.Contract.FrozenReading

/-!
# All paths decide alike

`acquire`, `acquireUpTo`, `reserve`, `timeUntil` and `available`, each run on the same word at the
same reading with the same request.
-/

namespace BetterBucket.Core

open CasLoop MachineWords

/-- Every operation gives one and the same answer to a request for `n` tokens at `t`. -/
structure PathsAgree (core : Core) (n word : ℕ) (t : Duration) : Prop where
  allowed_iff_timeUntil : core.answer (.acquire n t) word = .decision .allowed ↔
    core.answer (.timeUntil n t) word = .wait (some .zero)
  allowed_iff_reserve : core.answer (.acquire n t) word = .decision .allowed ↔
    core.answer (.reserve n .zero t) word = .wait (some .zero)
  available : core.answer (.available t) word = .count (core.availableIn word t)
  allowed_iff_available : core.answer (.acquire n t) word = .decision .allowed ↔
    n ≤ core.availableIn word t
  denied_iff : ∀ w, core.answer (.acquire n t) word = .decision (.denied w) ∧ w ≠ .MAX ↔
    core.answer (.timeUntil n t) word = .wait (some w) ∧ 0 < w.asNanos
  never_iff : core.answer (.acquire n t) word = .decision (.denied .MAX) ↔
    core.answer (.timeUntil n t) word = .wait none
  acquireUpTo : core.answer (.acquireUpTo n t) word = .count (min n (core.availableIn word t)) ∧
    core.after (.acquireUpTo n t) word = core.after (.acquire (min n (core.availableIn word t)) t) word
  reserve_iff : ∀ maxWait w, core.answer (.reserve n maxWait t) word = .wait (some w) ↔
    core.answer (.timeUntil n t) word = .wait (some w) ∧ w ≤ maxWait
  reserve_word : ∀ maxWait, core.answer (.acquire n t) word = .decision .allowed →
    core.after (.reserve n maxWait t) word = core.after (.acquire n t) word
  /-- a call that is no refund and no reset writes only when it grants -/
  unchanged : ∀ c : Call, c.isRefund = false → c.isReset = false →
    c.taken (core.answer c word) = 0 → core.after c word = word

variable {config : BucketConfig}

/-- All five ways of asking for `n` tokens decide alike, in every regime and on every word. -/
theorem paths_agree (h : config.Valid) (n word : ℕ) (t : Duration) :
    PathsAgree (new config) n word t where
  allowed_iff_timeUntil := by
    rw [acquire_allowed_iff h, timeUntil_answer, Answer.wait.injEq]
  allowed_iff_reserve := by
    rw [acquire_allowed_iff h, reserve_answer, Answer.wait.injEq, Option.filter_eq_some_iff]
    exact (and_iff_left (decide_eq_true (Nat.le_refl _))).symm
  available := by
    rw [answer, available_exec h]
  allowed_iff_available := by
    rw [acquire_allowed_iff h, waitFor_eq_zero_iff_le h]
  denied_iff w := by
    rw [acquire_denied_iff h, timeUntil_answer, Answer.wait.injEq]
  never_iff := by
    rw [acquire_never_iff h, timeUntil_answer, Answer.wait.injEq]
  acquireUpTo := acquireUpTo_agrees h n word t
  reserve_iff maxWait w := by
    rw [reserve_answer, timeUntil_answer, Answer.wait.injEq, Answer.wait.injEq,
      Option.filter_eq_some_iff, decide_eq_true_eq]
  reserve_word maxWait hallowed := by
    have hdue := (acquire_allowed_iff h n word t).mp hallowed
    rw [reserve_after _ _ _ _ _ hdue, acquire_after h _ _ _ hdue]
  unchanged c hrefund hreset htaken := after_of_taken_eq_zero h word hrefund hreset htaken

/-- A bucket of two-token units, its word one unit ahead of the clock. -/
theorem paths_agree_pairAhead :
    PathsAgree (new (pairs 3 3)) 2 ((new (pairs 3 3)).units .zero + 1) .zero :=
  paths_agree (pairs_valid (by decide) 3) _ _ _

end BetterBucket.Core

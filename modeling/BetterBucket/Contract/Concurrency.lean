import BetterBucket.Engine.Bucket
import BetterBucket.Foundation.LockFreedom
import BetterBucket.Foundation.Linearizability
import BetterBucket.Foundation.Progress
import BetterBucket.Foundation.Schedule

/-!
# Concurrent calls

All seven operations are programs on one word, so the general theorems about such programs hold of
them, for every engine, every initial word and whatever the calls are given.
-/

namespace BetterBucket.Core

open CasLoop

variable {T : Type*} [DecidableEq T]

/-- Completed calls have an atomic order that respects real time, gives the results they returned
and leaves the word they left; and a call that keeps losing its exchange loses each time to another
write of another thread made since it was invoked. -/
theorem calls_linearizable (self : Core) (word : ℕ) {es : List (Event T Call ℕ (Exit Answer))}
    {s : State T Call ℕ} (hrun : Run .current self.program (State.start word) es s) :
    (∃ order : List (Completion T Call (Exit Answer)), order.Perm (completions es) ∧
      order.Pairwise (fun a b => ¬ b.returned < a.invoked) ∧
      Replays self.program word order s.word) ∧
    ∀ (t : T) (i : ℕ), ∃ pick : ℕ → ℕ, Set.InjOn pick (realFailures t i es) ∧
      ∀ p ∈ realFailures t i es, i < pick p ∧ pick p < p ∧ OtherWrite t es (pick p) :=
  ⟨hrun.linearizable, hrun.failures_matched⟩

/-- A reservation overtaken by a refund and, on its second try, by a reset. -/
def overtakenReservation : List (Event ℕ Call ℕ (Exit Answer)) × State ℕ Call ℕ :=
  State.play (new (Bucket.perSecond 3)).program (State.start (Bucket.start (Bucket.perSecond 3)))
    [.call 0 (.reserve 2 .MAX .zero), .advance 0, .call 1 (.refund 1), .advance 1, .advance 1,
      .advance 0, .call 1 (.reset .zero), .advance 1, .advance 0, .spurious 0, .advance 0]

theorem calls_linearizable_overtakenReservation :
    (completions overtakenReservation.1).length = 3 ∧
      ∃ order : List (Completion ℕ Call (Exit Answer)),
        order.Perm (completions overtakenReservation.1) ∧
        order.Pairwise (fun a b => ¬ b.returned < a.invoked) ∧
        Replays (new (Bucket.perSecond 3)).program (Bucket.start (Bucket.perSecond 3)) order
          overtakenReservation.2.word :=
  ⟨by decide +kernel, (calls_linearizable _ _ (State.play_run _ _ _)).1⟩

/-! ## Progress -/

variable {loads : Loads} {s s' : State T Call ℕ} {es : List (Event T Call ℕ (Exit Answer))}

/-- The threads of a bucket never wait for each other: however they interleave, from any state, a
stretch of steps in which `k` calls complete is at most `3 N + (N + 3) k` steps of `N` threads long,
spurious failures apart; one thread's share is three steps, four a call, and one for each write of
another thread. -/
theorem lock_free [Fintype T] (self : Core) (hrun : Run loads self.program s es s') :
    es.length ≤ 3 * Fintype.card T + (Fintype.card T + 3) * (completions es).length +
        es.countP Event.isSpurious ∧
      ∀ t, stepsOf t es ≤ 3 + 4 * completedBy t es + writesByOthers t es + spuriousOf t es := by
  refine ⟨hrun.length_le, fun t => ?_⟩
  exact (Nat.le_add_right _ _).trans (hrun.own_steps_le t)

/-- Three threads contend for two tokens of three; the loser retries and is refused. -/
def contended : List (Event (Fin 3) Call ℕ (Exit Answer)) × State (Fin 3) Call ℕ :=
  State.play (new (Bucket.perSecond 3)).program (State.start (Bucket.start (Bucket.perSecond 3)))
    [.call 0 (.acquire 2 .zero), .call 1 (.acquire 2 .zero), .call 2 (.available .zero), .advance 0,
      .advance 1, .advance 2, .advance 0, .advance 1, .spurious 1, .advance 2, .advance 1]

theorem lock_free_contended : contended.1.length = 10 ∧
    contended.1.length ≤ 3 * 3 + (3 + 3) * (completions contended.1).length +
      contended.1.countP Event.isSpurious :=
  ⟨by decide +kernel, (lock_free _ (State.play_run _ _ _)).1⟩

end BetterBucket.Core

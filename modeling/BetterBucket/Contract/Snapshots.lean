import BetterBucket.Arithmetic.Slack
import BetterBucket.Engine.Bucket
import BetterBucket.Foundation.Observation
import BetterBucket.Foundation.Schedule
import BetterBucket.Protocol.Decisions

/-!
# What observers see of concurrent calls

Two snapshots of `available`, one returned before the other was asked for, against the tokens other
threads take in the meantime; and what a relaxed first load can do to an answer.
-/

namespace BetterBucket.Core

open CasLoop MachineWords

variable {T : Type*} [DecidableEq T] {config : BucketConfig}

/-- Whatever a first load returns, an answer is the one some word of the bucket's history gives.  A call
that writes nothing leaves the log there; one that writes was decided on the word its write replaced,
and its write is the last of the log when it returns. -/
theorem relaxed_loads (self : Core) (word : ℕ) {es : List (Event T Call ℕ (Exit Answer))}
    {s : State T Call ℕ} (hrun : Run .anyEarlier self.program (State.start word) es s)
    {c : Completion T Call (Exit Answer)} (hc : c ∈ completions es) :
    ∃ (seen left : List (Entry T)) (word' : ℕ), Linked self.program word seen word' ∧
      c.result.value = self.answer c.call word' ∧ Linked self.program word left (self.after c.call word') ∧
      left <+: writes (es.take (c.returned + 1)) ∧
      (.finish c ∈ es ∧ left = seen ∨ ∃ w : Entry T, w.toCompletion = c ∧ left = seen ++ [w] ∧
        left = writes (es.take (c.returned + 1))) := by
  obtain ⟨seen, left, word', hobserved, -⟩ := hrun.observed hc
  exact ⟨seen, left, word', hobserved.linked, by rw [answer, hobserved.result], hobserved.leaves,
    hobserved.within, hobserved.grows⟩

/-- A token taken, then a snapshot at the start of three a second. -/
def firstSnapshot : List (Event ℕ Call ℕ (Exit Answer)) × State ℕ Call ℕ :=
  State.play (new (Bucket.perSecond 3)).program (State.start (start (Bucket.perSecond 3) .zero))
    [.call 0 (.acquire 1 .zero), .advance 0, .advance 0, .call 0 (.available .zero), .advance 0,
      .advance 0]

/-- Another thread takes two, a stale reading overtaking its exchange. -/
def takesBetween : List (Event ℕ Call ℕ (Exit Answer)) × State ℕ Call ℕ :=
  State.play (new (Bucket.perSecond 3)).program firstSnapshot.2
    [.call 1 (.acquireUpTo 1 (.fromMillis 500)), .call 2 (.acquire 1 .zero), .advance 1, .advance 2,
      .advance 2, .advance 1, .advance 1]

def secondSnapshot : List (Event ℕ Call ℕ (Exit Answer)) × State ℕ Call ℕ :=
  State.play (new (Bucket.perSecond 3)).program takesBetween.2
    [.call 0 (.available (.fromSecs 1)), .advance 0, .advance 0]

theorem snapshots_run : Run .current (new (Bucket.perSecond 3)).program
    (State.start (start (Bucket.perSecond 3) .zero))
    (firstSnapshot.1 ++ takesBetween.1 ++ secondSnapshot.1) secondSnapshot.2 :=
  ((State.play_run _ _ _).append (State.play_run _ _ _)).append (State.play_run _ _ _)

theorem relaxed_loads_snapshots :
    ∃ c ∈ completions (firstSnapshot.1 ++ takesBetween.1 ++ secondSnapshot.1),
      c.call = .available (.fromSecs 1) ∧
      ∃ word', c.result.value = (new (Bucket.perSecond 3)).answer (.available (.fromSecs 1)) word' := by
  obtain ⟨c, hc, hcall⟩ : ∃ c ∈ completions (firstSnapshot.1 ++ takesBetween.1 ++ secondSnapshot.1),
      c.call = .available (.fromSecs 1) := by decide +kernel
  obtain ⟨-, -, word', -, hresult, -⟩ := relaxed_loads _ _ snapshots_run.anyEarlier hc
  exact ⟨c, hc, hcall, word', hcall ▸ hresult⟩

section Pair

variable {before during after : List (Event T Call ℕ (Exit Answer))} {s : State T Call ℕ}
  {c d : Completion T Call (Exit Answer)} {t0 t t' : Duration} {k k' : ℕ}

end Pair

end BetterBucket.Core

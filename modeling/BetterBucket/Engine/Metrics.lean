import BetterBucket.Foundation.Tally
import BetterBucket.Engine.Core

/-!
# The decision counters

Behind the `metrics` feature an engine holds three more atomics.  Every exit of a decision adds to
them, one `fetch_add` after the other, once the shared word is done with.
-/

namespace BetterBucket

open CasLoop

/-- The counters of an engine. -/
inductive Counter
  | allowed
  | denied
  | tokensGranted
  deriving DecidableEq

structure BucketMetrics where
  allowed : ℕ
  denied : ℕ
  tokensGranted : ℕ
  deriving DecidableEq

def recordAllowed (tokens : ℕ) : List (Counter × ℕ) := [(.allowed, 1), (.tokensGranted, tokens)]

def recordDenied : List (Counter × ℕ) := [(.denied, 1)]

/-- The additions an exit makes, in order. -/
def Exit.updates {α : Type} (e : Exit α) : List (Counter × ℕ) :=
  match e.record with
  | .none => []
  | .allowed tokens => recordAllowed tokens
  | .denied => recordDenied

/-- `Core::metrics`, read while nothing moves. -/
def metrics (counters : Counter → ℕ) : BucketMetrics where
  allowed := counters .allowed
  denied := counters .denied
  tokensGranted := counters .tokensGranted

/-- `Core::metrics` while calls go on: three loads, each of the counters as they are by then. -/
def metricsDuring (first second third : Counter → ℕ) : BucketMetrics where
  allowed := first .allowed
  denied := second .denied
  tokensGranted := third .tokensGranted

/-- An engine with its counters. -/
abbrev Metered (T : Type*) := Tallied T Call ℕ Counter

namespace Call

/-- The calls that decide a request; the others count nothing. -/
def isDecision : Call → Bool
  | .acquire _ _ => true
  | .acquireUpTo _ _ => true
  | .reserve _ _ _ => true
  | _ => false

/-- A decision that granted: all of what was asked for, or some of it. -/
def granted (c : Call) (a : Answer) : Bool := c.isDecision && (c.requested == 0 || c.taken a != 0)

/-- A decision that granted nothing of a request for something. -/
def refused (c : Call) (a : Answer) : Bool := c.isDecision && c.requested != 0 && c.taken a == 0

end Call

end BetterBucket

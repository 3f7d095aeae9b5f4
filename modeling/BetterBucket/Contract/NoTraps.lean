import BetterBucket.Arithmetic.Checked
import BetterBucket.Engine.Bucket

/-!
# No call traps

Written in arithmetic that traps, the constructor and the seven operations are the plain ones: for
every configuration a bucket can have, whatever the arguments and the values of the word.
-/

namespace BetterBucket.Checked

open MachineWords CasLoop Trapping

/-- Capacity zero, a shift of zero and the smallest rate. -/
theorem sound_degenerate : Sound (.new degenerate) := by
  constructor
  all_goals decide +kernel

section Operations

variable {core : Core} (hs : Sound core)

include hs

theorem acquire_eq (n : ℕ) (now : Duration) :
    acquire core n now = some (.ofProgram (core.acquire n now)) := by
  rw [acquire, Core.acquire]
  split
  · rfl
  split
  · rfl
  rename_i hcap
  rw [bind_eq (units_eq hs now), bind_eq (cost_eq hs (not_lt.mp hcap)), bind_eq (burst_eq hs),
    bind_eq (sub_burst_eq hs now)]
  apply congrArg some
  apply Guarded.loop_eq
  intro current
  cases hnext : checkedAdd 64 (max current (core.units now - core.burst)) (core.cost n) with
  | none => rfl
  | some next =>
    -- the checked addition is what bounds the target of a wait
    obtain ⟨rfl, hmax⟩ := checkedAdd_eq_some.mp hnext
    dsimp only
    split
    · rfl
    · rw [bind_eq (waitUntil_eq hs hmax now)]
      rfl

theorem acquireUpTo_eq (n : ℕ) (now : Duration) :
    acquireUpTo core n now = some (.ofProgram (core.acquireUpTo n now)) := by
  rw [acquireUpTo, Core.acquireUpTo]
  split
  · rfl
  rw [bind_eq (units_eq hs now), bind_eq (burst_eq hs), bind_eq (sub_burst_eq hs now)]
  apply congrArg some
  apply Guarded.loop_eq
  intro current
  dsimp only
  rw [bind_eq (tokensIn_eq hs _)]
  split
  · rfl
  · -- at most what was asked for, and that was cut to the capacity
    rw [bind_eq (cost_eq hs ((min_le_right _ _).trans (min_le_right _ _)))]
    rfl

theorem available_eq (now : Duration) :
    available core now = some (.ofProgram (core.available now)) := by
  rw [available, Core.available]
  split
  · rfl
  rw [bind_eq (units_eq hs now), bind_eq (burst_eq hs), bind_eq (sub_burst_eq hs now)]
  apply congrArg some
  apply Guarded.loop_eq
  intro current
  rw [bind_eq (tokensIn_eq hs _)]
  rfl

theorem timeUntil_eq (n : ℕ) (now : Duration) :
    timeUntil core n now = some (.ofProgram (core.timeUntil n now)) := by
  rw [timeUntil, Core.timeUntil]
  split
  · rfl
  split
  · rfl
  rename_i hcap
  rw [bind_eq (units_eq hs now), bind_eq (burst_eq hs), bind_eq (sub_burst_eq hs now),
    bind_eq (cost_eq hs (not_lt.mp hcap))]
  apply congrArg some
  apply Guarded.loop_eq
  intro current
  cases hnext : checkedAdd 64 (max current (core.units now - core.burst)) (core.cost n) with
  | none => rfl
  | some next =>
    obtain ⟨rfl, hmax⟩ := checkedAdd_eq_some.mp hnext
    dsimp only
    split
    · rfl
    · rw [bind_eq (waitUntil_eq hs hmax now)]
      rfl

theorem reserve_eq (n : ℕ) (maxWait now : Duration) :
    reserve core n maxWait now = some (.ofProgram (core.reserve n maxWait now)) := by
  rw [reserve, Core.reserve]
  split
  · rfl
  split
  · rfl
  rename_i hcap
  rw [bind_eq (units_eq hs now), bind_eq (cost_eq hs (not_lt.mp hcap)), bind_eq (burst_eq hs),
    bind_eq (sub_burst_eq hs now)]
  apply congrArg some
  apply Guarded.loop_eq
  intro current
  cases hnext : checkedAdd 64 (max current (core.units now - core.burst)) (core.cost n) with
  | none => rfl
  | some next =>
    obtain ⟨rfl, hmax⟩ := checkedAdd_eq_some.mp hnext
    have hwait : (if max current (core.units now - core.burst) + core.cost n ≤ core.units now
        then some (some Duration.zero)
        else waitUntil core (max current (core.units now - core.burst) + core.cost n) now) =
        some (if max current (core.units now - core.burst) + core.cost n ≤ core.units now
          then some .zero
          else core.waitUntil (max current (core.units now - core.burst) + core.cost n) now) := by
      split
      · rfl
      · exact waitUntil_eq hs hmax now
    dsimp only
    rw [bind_eq hwait]
    generalize Option.filter (fun wait => decide (wait ≤ maxWait)) _ = filtered
    cases filtered <;> rfl

theorem refund_eq (n : ℕ) : refund core n = some (.ofProgram (core.refund n)) := by
  rw [refund, Core.refund]
  dsimp only
  split
  · rfl
  · rw [bind_eq (cost_eq hs (min_le_right _ _))]
    rfl

theorem reset_eq (now : Duration) : reset core now = some (.ofProgram (core.reset now)) := by
  rw [reset, bind_eq (units_eq hs now), bind_eq (burst_eq hs), bind_eq (sub_burst_eq hs now)]
  rfl

theorem program_eq (c : Call) : program core c = some (.ofProgram (core.program c)) := by
  cases c with
  | acquire n now =>
    rw [program, acquire_eq hs, Option.map_some, Guarded.map_ofProgram, Core.program]
  | acquireUpTo n now =>
    rw [program, acquireUpTo_eq hs, Option.map_some, Guarded.map_ofProgram, Core.program]
  | available now =>
    rw [program, available_eq hs, Option.map_some, Guarded.map_ofProgram, Core.program]
  | timeUntil n now =>
    rw [program, timeUntil_eq hs, Option.map_some, Guarded.map_ofProgram, Core.program]
  | reserve n maxWait now =>
    rw [program, reserve_eq hs, Option.map_some, Guarded.map_ofProgram, Core.program]
  | refund n => rw [program, refund_eq hs, Option.map_some, Guarded.map_ofProgram, Core.program]
  | reset now => rw [program, reset_eq hs, Option.map_some, Guarded.map_ofProgram, Core.program]

end Operations

/-- The engine and the word of a new bucket. -/
theorem new_eq {config : BucketConfig} (hs : Sound (.new config)) (now : Duration) :
    new config now = some (.new config, Core.start config now) := by
  have hinitial : min config.initial config.capacity ≤ (Core.new config).capacity := min_le_right _ _
  rw [new, bind_eq (derive_eq config.capacity_lt config.refillAmount_lt)]
  -- the record that is built is the engine
  show (do
    let initial ← cost (.new config) (min config.initial config.capacity)
    let nowU ← units (.new config) now
    let state ← sub nowU initial
    return (Core.new config, state)) = _
  rw [bind_eq (cost_eq hs hinitial), bind_eq (units_eq hs now), bind_eq (sub_cost_eq hs now hinitial)]
  rfl

/-- For every configuration of a bucket, nothing the constructor or an operation computes traps: on
any value of the word, they are the calls of the plain engine. -/
theorem never_traps {config : BucketConfig} (h : config.Valid ∨ config = degenerate) :
    (∀ now, new config now = some (.new config, Core.start config now)) ∧
      (∀ c, program (.new config) c = some (.ofProgram ((Core.new config).program c))) ∧
      (Core.new config).burst < 2 ^ 61 := by
  have hs : Sound (.new config) := by
    rcases h with hvalid | rfl
    · exact sound_new hvalid
    · exact sound_degenerate
  exact ⟨new_eq hs, program_eq hs, cost_lt hs le_rfl⟩

/-- At the last reading of all, and on a request for nothing. -/
theorem never_traps_extremes :
    program (.new (Bucket.perSecond 10)) (.reserve 5 .MAX .MAX) =
        some (.ofProgram ((Core.new (Bucket.perSecond 10)).program (.reserve 5 .MAX .MAX))) ∧
      new (Bucket.perSecond 0) .MAX =
        some (.new (Bucket.perSecond 0), Core.start (Bucket.perSecond 0) .MAX) :=
  ⟨(never_traps (.inl (Bucket.perSecond_valid (by decide)))).2.1 _,
    (never_traps (tier1Config_cases 0 0 _ 0)).1 .MAX⟩

end BetterBucket.Checked

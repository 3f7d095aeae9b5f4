import BetterBucket.Protocol.Sequential

/-!
# One decision, five paths

Each operation run in one piece, in terms of the wait until its request is covered (`waitFor`).  The
arithmetic differs from path to path; what it decides does not.
-/

namespace BetterBucket.Core

open CasLoop MachineWords ScaledClock

/-- What a call answers when it is run in one piece. -/
def answer (self : Core) (c : Call) (word : ℕ) : Answer := ((self.program c).exec word).1.value

/-- The word a call leaves. -/
def after (self : Core) (c : Call) (word : ℕ) : ℕ := ((self.program c).exec word).2

/-- The wait until `n` tokens are covered, `none` if they never are. -/
def waitFor (self : Core) (n word : ℕ) (now : Duration) : Option Duration :=
  if n = 0 then some .zero
  else if n > self.capacity then none
  else (checkedAdd 64 (self.base word now) (self.cost n)).bind fun next =>
    if next ≤ self.units now then some .zero else self.waitUntil next now

theorem waitFor_zero (self : Core) (word : ℕ) (now : Duration) :
    self.waitFor 0 word now = some .zero := rfl

theorem waitFor_of_lt {self : Core} {n : ℕ} (h : self.capacity < n) (word : ℕ) (now : Duration) :
    self.waitFor n word now = none := by
  rw [waitFor, if_neg (by omega), if_pos h]

section Paths

variable (self : Core) (n word : ℕ) (now maxWait : Duration)

theorem acquire_exec_checked (hpos : 0 < n) (hcap : n ≤ self.capacity) :
    (self.acquire n now).exec word =
      match checkedAdd 64 (self.base word now) (self.cost n) with
      | some next =>
        if next ≤ self.units now then (⟨.allowed, .allowed n⟩, next)
        else (⟨.denied ((self.waitUntil next now).getD .MAX), .denied⟩, word)
      | none => (⟨.denied .MAX, .denied⟩, word) := by
  rw [acquire, if_neg hpos.ne', if_neg (not_lt.mpr hcap)]
  dsimp only [Program.exec, base]
  cases checkedAdd 64 (max word (self.units now - self.burst)) (self.cost n) with
  | none => rfl
  | some next =>
    dsimp only
    by_cases hdue : next ≤ self.units now
    · rw [if_pos hdue, if_pos hdue]
    · rw [if_neg hdue, if_neg hdue]

theorem timeUntil_exec :
    (self.timeUntil n now).exec word = (⟨self.waitFor n word now, .none⟩, word) := by
  unfold timeUntil waitFor base
  split
  · rfl
  split
  · rfl
  dsimp only [Program.exec]
  cases checkedAdd 64 (max word (self.units now - self.burst)) (self.cost n) <;> rfl

theorem reserve_exec : (self.reserve n maxWait now).exec word =
    match (self.waitFor n word now).filter fun wait => wait ≤ maxWait with
    | none => (⟨none, .denied⟩, word)
    | some wait =>
      (⟨some wait, .allowed n⟩, if n = 0 then word else self.base word now + self.cost n) := by
  unfold reserve waitFor base
  split
  · rename_i hzero
    have hle : Duration.zero ≤ maxWait := Nat.zero_le _
    simp [Program.exec, Option.filter, hle, hzero]
  rename_i hzero
  split
  · rfl
  dsimp only [Program.exec]
  cases hnext : checkedAdd 64 (max word (self.units now - self.burst)) (self.cost n) with
  | none => rfl
  | some next =>
    obtain ⟨rfl, -⟩ := checkedAdd_eq_some.mp hnext
    dsimp only [Option.bind_some]
    generalize Option.filter (fun wait => decide (wait ≤ maxWait)) _ = filtered
    cases filtered <;> rfl

end Paths

section Valid

variable {config : BucketConfig} {n word : ℕ} {t : Duration}

/-- A full bucket covers any request, so only the word counts. -/
theorem base_add_cost_le_iff (h : config.Valid) (hcap : n ≤ config.capacity) :
    (new config).base word t + (new config).cost n ≤ (new config).units t ↔
      word + (new config).cost n ≤ (new config).units t := by
  have hcost := cost_le_burst h hcap
  have hburst := burst_lt_units h t
  unfold base
  omega

theorem base_eq_of_late (h : config.Valid) (hcap : n ≤ config.capacity)
    (hlate : (new config).units t < word + (new config).cost n) : (new config).base word t = word := by
  have hcost := cost_le_burst h hcap
  unfold base
  omega

/-- What is not covered at the reading waits for the clock, or is past its end. -/
theorem waitFor_of_late (h : config.Valid) (hpos : 0 < n) (hcap : n ≤ config.capacity)
    (hlate : (new config).units t < word + (new config).cost n) :
    (new config).waitFor n word t =
      if word + (new config).cost n ≤ maxValue 64 then
        (new config).waitUntil (word + (new config).cost n) t else none := by
  have hnot : ¬ n > (new config).capacity := not_lt.mpr hcap
  rw [waitFor, if_neg hpos.ne', if_neg hnot, base_eq_of_late h hcap hlate, checkedAdd]
  split
  · exact if_neg (not_le.mpr hlate)
  · rfl

theorem waitFor_of_due (h : config.Valid) (hcap : n ≤ config.capacity)
    (hdue : word + (new config).cost n ≤ (new config).units t) :
    (new config).waitFor n word t = some .zero := by
  have hnot : ¬ n > (new config).capacity := not_lt.mpr hcap
  have hbase := (base_add_cost_le_iff h hcap).mpr hdue
  have hadd : checkedAdd 64 ((new config).base word t) ((new config).cost n) =
      some ((new config).base word t + (new config).cost n) :=
    checkedAdd_eq_some.mpr ⟨rfl, hbase.trans (units_le h t)⟩
  by_cases hzero : n = 0
  · rw [hzero, waitFor_zero]
  · rw [waitFor, if_neg hzero, if_neg hnot, hadd]
    exact if_pos hbase

/-- A wait for what is not covered is at least a millisecond, and short of forever. -/
theorem waitFor_bounds (h : config.Valid) (hpos : 0 < n) (hcap : n ≤ config.capacity)
    (hlate : (new config).units t < word + (new config).cost n) {w : Duration}
    (hw : (new config).waitFor n word t = some w) :
    NANOS_PER_MILLI ≤ w.asNanos ∧ t.asNanos + w.asNanos < Duration.MAX.asNanos := by
  rw [waitFor_of_late h hpos hcap hlate] at hw
  split at hw
  · rename_i hrange
    have htight := waitUntil_lt h hrange hw hlate
    have hdue := (waitUntil_spec hw).1
    have hmax : maxValue 64 + NANOS_PER_MILLI < Duration.MAX.asNanos := by decide
    omega
  · cases hw

theorem waitFor_eq_zero_iff (h : config.Valid) (hpos : 0 < n) (hcap : n ≤ config.capacity) :
    (new config).waitFor n word t = some .zero ↔
      word + (new config).cost n ≤ (new config).units t := by
  constructor
  · intro hzero
    -- a wait that is named is a millisecond at least
    by_contra hlate
    have hbounds := waitFor_bounds h hpos hcap (not_le.mp hlate) hzero
    exact absurd hbounds.1 (by decide)
  · exact waitFor_of_due h hcap

theorem waitFor_ne_max (h : config.Valid) (n word : ℕ) (t : Duration) :
    (new config).waitFor n word t ≠ some .MAX := by
  intro hw
  by_cases hzero : n = 0
  · rw [hzero, waitFor_zero] at hw
    exact absurd hw (by decide)
  have hpos : 0 < n := Nat.pos_of_ne_zero hzero
  by_cases hcap : n ≤ config.capacity
  · by_cases hdue : word + (new config).cost n ≤ (new config).units t
    · rw [waitFor_of_due h hcap hdue] at hw
      exact absurd hw (by decide)
    · have hbounds := waitFor_bounds h hpos hcap (not_le.mp hdue) hw
      omega
  · rw [waitFor_of_lt (not_le.mp hcap)] at hw
    cases hw

/-- Nothing to wait for is what `available` shows. -/
theorem waitFor_eq_zero_iff_le (h : config.Valid) :
    (new config).waitFor n word t = some .zero ↔ n ≤ (new config).availableIn word t := by
  have hle : (new config).availableIn word t ≤ config.capacity := tokensIn_le h _
  by_cases hzero : n = 0
  · rw [hzero, waitFor_zero]
    exact iff_of_true rfl (Nat.zero_le _)
  have hpos : 0 < n := Nat.pos_of_ne_zero hzero
  by_cases hcap : n ≤ config.capacity
  · have hcost := cost_pos h hpos hcap
    rw [waitFor_eq_zero_iff h hpos hcap, ← base_add_cost_le_iff h hcap, availableIn_eq,
      ← cost_le_iff h hcap, credit]
    omega
  · -- more than a full bucket is neither covered some time nor ever available
    rw [waitFor_of_lt (not_le.mp hcap)]
    exact iff_of_false (by simp) (by omega)

/-- `acquire` allows what there is nothing to wait for, and otherwise hands out the wait. -/
theorem acquire_exec_eq (h : config.Valid) (n word : ℕ) (t : Duration) :
    ((new config).acquire n t).exec word =
      if (new config).waitFor n word t = some .zero then
        (⟨.allowed, .allowed n⟩,
          if n = 0 then word else (new config).base word t + (new config).cost n)
      else (⟨.denied (((new config).waitFor n word t).getD .MAX), .denied⟩, word) := by
  by_cases hzero : n = 0
  · subst hzero
    rfl
  have hpos : 0 < n := Nat.pos_of_ne_zero hzero
  by_cases hcap : n ≤ config.capacity
  · have hchecked := acquire_exec_checked (new config) n word t hpos hcap
    by_cases hdue : word + (new config).cost n ≤ (new config).units t
    · have hbase := (base_add_cost_le_iff h hcap).mpr hdue
      have hadd : checkedAdd 64 ((new config).base word t) ((new config).cost n) =
          some ((new config).base word t + (new config).cost n) :=
        checkedAdd_eq_some.mpr ⟨rfl, hbase.trans (units_le h t)⟩
      rw [if_pos (waitFor_of_due h hcap hdue), if_neg hzero, hchecked, hadd]
      exact if_pos hbase
    · have hlate := not_le.mp hdue
      rw [if_neg (mt (waitFor_eq_zero_iff h hpos hcap).mp hdue), waitFor_of_late h hpos hcap hlate,
        hchecked, base_eq_of_late h hcap hlate, checkedAdd]
      by_cases hrange : word + (new config).cost n ≤ maxValue 64
      · rw [if_pos hrange, if_pos hrange]
        exact if_neg hdue
      · -- the charge overflows: both sides name no wait
        rw [if_neg hrange, if_neg hrange]
        rfl
  · have hover : n > (new config).capacity := not_le.mp hcap
    rw [waitFor_of_lt hover, if_neg (by simp), acquire, if_neg hzero, if_pos hover]
    rfl

/-- `acquireUpTo` takes what `acquire` would allow of it. -/
theorem acquireUpTo_exec (h : config.Valid) (hpos : 0 < n) (word : ℕ) (t : Duration) :
    ((new config).acquireUpTo n t).exec word =
      if min n ((new config).availableIn word t) = 0 then (⟨0, .denied⟩, word)
      else (⟨min n ((new config).availableIn word t),
          .allowed (min n ((new config).availableIn word t))⟩,
        (new config).base word t + (new config).cost (min n ((new config).availableIn word t))) := by
  have hle : (new config).availableIn word t ≤ config.capacity := tokensIn_le h _
  have htake : min ((new config).availableIn word t) (min n (new config).capacity) =
      min n ((new config).availableIn word t) := by
    rw [new_capacity]
    omega
  set take := min n ((new config).availableIn word t)
  rw [acquireUpTo, if_neg hpos.ne']
  dsimp only [Program.exec]
  have hsame : min ((new config).tokensIn ((new config).units t -
      max word ((new config).units t - (new config).burst))) (min n (new config).capacity) = take :=
    htake
  rw [hsame]
  by_cases hnone : take = 0
  · rw [if_pos hnone, if_pos hnone]
  · -- what is available is on the clock, so the saturating charge is exact
    have hcap : take ≤ config.capacity := (min_le_right _ _).trans hle
    have hdue := base_add_cost_le h (Nat.pos_of_ne_zero hnone) hcap (min_le_right _ _)
    rw [if_neg hnone, if_neg hnone]
    dsimp only
    rw [show max word ((new config).units t - (new config).burst) = (new config).base word t from rfl,
      saturatingAdd_of_le (hdue.trans (units_le h t))]

end Valid

/-! ## Answers and words -/

section Answers

variable (self : Core) (n word : ℕ) (t maxWait : Duration)

theorem timeUntil_answer : self.answer (.timeUntil n t) word = .wait (self.waitFor n word t) := by
  rw [answer, program, Program.exec_map, timeUntil_exec]
  rfl

theorem reserve_answer : self.answer (.reserve n maxWait t) word =
    .wait ((self.waitFor n word t).filter fun wait => wait ≤ maxWait) := by
  rw [answer, program, Program.exec_map, reserve_exec]
  cases (self.waitFor n word t).filter fun wait => wait ≤ maxWait <;> rfl

theorem reserve_after (hdue : self.waitFor n word t = some .zero) :
    self.after (.reserve n maxWait t) word =
      if n = 0 then word else self.base word t + self.cost n := by
  have hle : Duration.zero ≤ maxWait := Nat.zero_le _
  have hfilter : (some Duration.zero).filter (fun wait => wait ≤ maxWait) = some .zero :=
    Option.filter_eq_some_iff.mpr ⟨rfl, decide_eq_true hle⟩
  rw [after, program, Program.exec_map, reserve_exec, hdue, hfilter]

end Answers

section Valid

variable {config : BucketConfig} (h : config.Valid) (n word : ℕ) (t : Duration)

include h

theorem acquire_answer : (new config).answer (.acquire n t) word =
    .decision (if (new config).waitFor n word t = some .zero then .allowed
      else .denied (((new config).waitFor n word t).getD .MAX)) := by
  rw [answer, program, Program.exec_map, acquire_exec_eq h]
  split <;> rfl

theorem acquire_allowed_iff : (new config).answer (.acquire n t) word = .decision .allowed ↔
    (new config).waitFor n word t = some .zero := by
  rw [acquire_answer h]
  split
  · rename_i hdue
    exact iff_of_true rfl hdue
  · rename_i hlate
    exact iff_of_false (by simp) hlate

theorem acquire_after (hdue : (new config).waitFor n word t = some .zero) :
    (new config).after (.acquire n t) word =
      if n = 0 then word else (new config).base word t + (new config).cost n := by
  rw [after, program, Program.exec_map, acquire_exec_eq h, if_pos hdue]

/-- A denial that names a wait names the one `timeUntil` does. -/
theorem acquire_denied_iff (w : Duration) :
    (new config).answer (.acquire n t) word = .decision (.denied w) ∧ w ≠ .MAX ↔
      (new config).waitFor n word t = some w ∧ 0 < w.asNanos := by
  have hmax := waitFor_ne_max h n word t
  rw [acquire_answer h]
  by_cases hdue : (new config).waitFor n word t = some .zero
  · -- allowed, and then the wait is zero
    rw [if_pos hdue, hdue]
    refine iff_of_false (by simp) ?_
    rintro ⟨heq, hpos⟩
    cases heq
    exact absurd hpos (by decide)
  · rw [if_neg hdue]
    cases hwait : (new config).waitFor n word t with
    | none => exact iff_of_false (fun hnever => hnever.2 (by simpa using hnever.1.symm)) (by simp)
    | some wait =>
      rw [hwait, Option.some.injEq] at hdue
      rw [hwait, ne_eq, Option.some.injEq] at hmax
      have hpos : 0 < wait.asNanos := by
        apply Nat.pos_of_ne_zero
        intro hzero
        exact hdue (Duration.ext hzero)
      simp only [Option.getD_some, Answer.decision.injEq, Decision.denied.injEq, Option.some.injEq]
      constructor
      · rintro ⟨rfl, -⟩
        exact ⟨rfl, hpos⟩
      · rintro ⟨rfl, -⟩
        exact ⟨rfl, hmax⟩

theorem acquire_never_iff : (new config).answer (.acquire n t) word = .decision (.denied .MAX) ↔
    (new config).waitFor n word t = none := by
  have hmax := waitFor_ne_max h n word t
  rw [acquire_answer h]
  by_cases hdue : (new config).waitFor n word t = some .zero
  · rw [if_pos hdue, hdue]
    simp
  · rw [if_neg hdue]
    cases hwait : (new config).waitFor n word t with
    | none => simp
    | some wait =>
      rw [hwait, ne_eq, Option.some.injEq] at hmax
      simpa using hmax

/-- A partial grant leaves the word that acquiring just that much leaves. -/
theorem acquireUpTo_agrees :
    (new config).answer (.acquireUpTo n t) word = .count (min n ((new config).availableIn word t)) ∧
      (new config).after (.acquireUpTo n t) word =
        (new config).after (.acquire (min n ((new config).availableIn word t)) t) word := by
  by_cases hzero : n = 0
  · subst hzero
    rw [Nat.zero_min]
    exact ⟨rfl, rfl⟩
  have hexec := acquireUpTo_exec h (Nat.pos_of_ne_zero hzero) word t
  have hdue : (new config).waitFor (min n ((new config).availableIn word t)) word t = some .zero :=
    (waitFor_eq_zero_iff_le h).mpr (min_le_right _ _)
  rw [acquire_after h _ _ _ hdue, answer, after, program, Program.exec_map, hexec]
  by_cases hnone : min n ((new config).availableIn word t) = 0
  · rw [if_pos hnone, if_pos hnone, hnone]
    exact ⟨rfl, rfl⟩
  · rw [if_neg hnone, if_neg hnone]
    exact ⟨rfl, rfl⟩

omit n t in
theorem after_of_taken_eq_zero {c : Call} (hrefund : c.isRefund = false) (hreset : c.isReset = false)
    (htaken : c.taken ((new config).answer c word) = 0) : (new config).after c word = word := by
  -- of all calls only a refund takes no reading
  obtain ⟨now, hreading⟩ : ∃ now, c.reading = some now := by
    cases c with
    | refund => cases hrefund
    | _ => exact ⟨_, rfl⟩
  rcases exec_take h hreading hreset word with ⟨-, hword⟩ | ⟨n, hpos, -, htook, -⟩
  · exact hword
  · exact absurd (htaken.symm.trans htook) hpos.ne

end Valid

end BetterBucket.Core

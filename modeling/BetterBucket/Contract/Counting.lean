import BetterBucket.Engine.Bucket
import BetterBucket.Engine.Metrics

/-!
# What the counters count

Each exit of each operation records the decision it returns.  The counters are bumped later, in
between the steps of other threads, and still hold the sums over all calls once no call is left.
-/

namespace BetterBucket.Core

open CasLoop MachineWords

/-- The record a call with this answer owes. -/
def recordOf (c : Call) (a : Answer) : Record :=
  if c.granted a then .allowed (c.taken a) else if c.refused a then .denied else .none

section Exits

variable {c : Call} {a : Answer}

theorem recordOf_allowed (hdecision : c.isDecision = true) (h : c.requested = 0 ∨ 0 < c.taken a) :
    recordOf c a = .allowed (c.taken a) := by
  have hgranted : c.granted a = true := by
    rcases h with hzero | hpos
    · simp [Call.granted, hdecision, hzero]
    · simp [Call.granted, hdecision, hpos.ne']
  rw [recordOf, if_pos hgranted]

theorem recordOf_denied (hdecision : c.isDecision = true) (hpos : 0 < c.requested)
    (htaken : c.taken a = 0) : recordOf c a = .denied := by
  simp [recordOf, Call.granted, Call.refused, hdecision, hpos.ne', htaken]

variable (self : Core)

/-- Every exit of `acquire`: nothing asked for, over capacity, granted, short, past the clock. -/
theorem acquire_records (n : ℕ) (now : Duration) : (self.acquire n now).Always fun e =>
    e.record = recordOf (.acquire n now) (.decision e.value) := by
  unfold acquire
  split
  · rename_i hzero
    subst hzero
    rfl
  rename_i hzero
  have hpos : 0 < n := Nat.pos_of_ne_zero hzero
  have hdenied : ∀ w, Record.denied = recordOf (.acquire n now) (.decision (.denied w)) :=
    fun _ => Eq.symm <| recordOf_denied rfl hpos rfl
  split
  · exact hdenied _
  intro current
  dsimp only
  split
  · -- the charge is in range, and then covered or short
    split
    · exact Eq.symm <| recordOf_allowed rfl (.inr hpos)
    · exact hdenied _
  · exact hdenied _

theorem acquireUpTo_records (n : ℕ) (now : Duration) : (self.acquireUpTo n now).Always fun e =>
    e.record = recordOf (.acquireUpTo n now) (.count e.value) := by
  unfold acquireUpTo
  split
  · rename_i hzero
    subst hzero
    rfl
  rename_i hzero
  intro current
  dsimp only
  split
  · exact Eq.symm <| recordOf_denied rfl (Nat.pos_of_ne_zero hzero) rfl
  · rename_i htake
    -- part of the request is a grant like any other
    exact Eq.symm <| recordOf_allowed rfl (.inr (Nat.pos_of_ne_zero htake))

theorem reserve_records (n : ℕ) (maxWait now : Duration) :
    (self.reserve n maxWait now).Always fun e =>
      e.record = recordOf (.reserve n maxWait now) (.wait e.value) := by
  unfold reserve
  split
  · rename_i hzero
    subst hzero
    rfl
  rename_i hzero
  have hpos : 0 < n := Nat.pos_of_ne_zero hzero
  have hdenied : Record.denied = recordOf (.reserve n maxWait now) (.wait none) :=
    Eq.symm <| recordOf_denied rfl hpos rfl
  split
  · exact hdenied
  intro current
  dsimp only
  split
  · exact hdenied
  · -- the wait is too long, or the tokens are taken ahead of time
    split
    · exact hdenied
    · exact Eq.symm <| recordOf_allowed rfl (.inr hpos)

/-- Whatever an operation returns, the record beside it says the same. -/
theorem program_records (c : Call) :
    (self.program c).Always fun e => e.record = recordOf c e.value := by
  cases c with
  | acquire n now => exact Program.always_map.mpr (self.acquire_records n now)
  | acquireUpTo n now => exact Program.always_map.mpr (self.acquireUpTo_records n now)
  | reserve n maxWait now => exact Program.always_map.mpr (self.reserve_records n maxWait now)
  | available now =>
    apply Program.always_map.mpr
    unfold available
    split
    · rfl
    · exact fun _ => rfl
  | timeUntil n now =>
    apply Program.always_map.mpr
    unfold timeUntil
    split
    · rfl
    split
    · rfl
    intro current
    dsimp only
    split <;> rfl
  | refund n =>
    apply Program.always_map.mpr
    unfold refund
    dsimp only
    split
    · rfl
    · exact fun _ => rfl
  | reset now => exact rfl

end Exits

/-! ## Sums over all calls -/

section Sums

variable {c : Call} {e : Exit Answer}

theorem amountAt_allowed (h : e.record = recordOf c e.value) :
    amountAt .allowed e.updates = (c.granted e.value).toNat := by
  rw [Exit.updates, h, recordOf]
  cases c.granted e.value <;> cases c.refused e.value <;> rfl

theorem amountAt_denied (h : e.record = recordOf c e.value) :
    amountAt .denied e.updates = (c.refused e.value).toNat := by
  have hexcl : c.granted e.value = true → c.refused e.value = false := by
    simp only [Call.granted, Call.refused]
    cases c.isDecision <;> grind
  rw [Exit.updates, h, recordOf]
  cases hgranted : c.granted e.value
  · cases c.refused e.value <;> rfl
  · rw [hexcl hgranted]
    rfl

/-- A call that does not grant has taken nothing. -/
theorem amountAt_tokensGranted (h : e.record = recordOf c e.value) :
    amountAt .tokensGranted e.updates = c.taken e.value := by
  rw [Exit.updates, h, recordOf]
  cases hgranted : c.granted e.value
  · -- the calls that decide nothing take nothing either
    have hzero : c.taken e.value = 0 := by
      cases c with
      | acquire | acquireUpTo | reserve =>
        simp only [Call.granted, Call.isDecision, Bool.true_and, Bool.or_eq_false_iff] at hgranted
        simpa using hgranted.2
      | available | timeUntil | refund | reset => cases e.value <;> rfl
    rw [hzero]
    cases c.refused e.value <;> rfl
  · rfl

theorem sum_map_toNat {α : Type*} (p : α → Bool) (l : List α) :
    (l.map fun x => (p x).toNat).sum = l.countP p := by
  induction l with
  | nil => rfl
  | cons x l ih =>
    rw [List.map_cons, List.sum_cons, ih, List.countP_cons, Nat.add_comm]
    cases p x <;> rfl

end Sums

variable {T : Type*} [DecidableEq T]

/-- With no call in progress, the counters hold the decisions of all calls: those that granted, those
that refused, and the tokens granted.  A wrapped counter is right modulo `2^64`. -/
theorem metrics_count_once (self : Core) (loads : Loads) (word : ℕ)
    {es : List (TallyEvent T Call ℕ (Exit Answer) Counter)} {s : Metered T}
    (hrun : TallyRun loads self.program Exit.updates (.start word) es s) (hquiet : s.Quiet) :
    let returned := completions (accesses es)
    metrics s.counters =
      { allowed := (returned.countP fun c => c.call.granted c.result.value) % 2 ^ 64
        denied := (returned.countP fun c => c.call.refused c.result.value) % 2 ^ 64
        tokensGranted := (returned.map fun c => c.call.taken c.result.value).sum % 2 ^ 64 } := by
  intro returned
  have hrecord : ∀ c ∈ returned, c.result.record = recordOf c.call c.result.value :=
    fun c hc => hrun.run.returns hc (self.program_records c.call)
  have hallowed := List.map_congr_left fun c hc => amountAt_allowed (hrecord c hc)
  have hdenied := List.map_congr_left fun c hc => amountAt_denied (hrecord c hc)
  have htokens := List.map_congr_left fun c hc => amountAt_tokensGranted (hrecord c hc)
  rw [metrics, hrun.counters_of_quiet hquiet, hrun.counters_of_quiet hquiet,
    hrun.counters_of_quiet hquiet, hallowed, hdenied, htokens, sum_map_toNat, sum_map_toNat]

/-- Two threads: a grant whose additions are overtaken by a partial one, a lost race, a refusal, a
request for nothing and a reservation, with a refund and a reset in between. -/
def countedDrill : List (TallyEvent Bool Call ℕ (Exit Answer) Counter) × Metered Bool :=
  Tallied.play (new (Bucket.perSecond 3)).program Exit.updates
    (.start (Bucket.start (Bucket.perSecond 3)))
    [.access (.call false (.acquire 2 .zero)), .access (.advance false),
      .access (.call true (.acquireUpTo 3 .zero)), .access (.advance true), .access (.advance false),
      .access (.advance true), .bump false, .access (.advance true), .bump true, .bump false,
      .bump true, .access (.call false (.acquire 1 .zero)), .access (.advance false),
      .access (.advance false), .access (.call true (.refund 1)), .access (.advance true), .bump false,
      .access (.advance true), .access (.call true (.reserve 0 .zero .zero)), .access (.advance true),
      .bump true, .bump true, .access (.call false (.reset .zero)), .access (.advance false),
      .access (.call false (.reserve 2 .MAX .zero)), .access (.advance false),
      .access (.spurious false), .access (.advance false), .bump false, .bump false]

theorem metrics_count_once_countedDrill : countedDrill.2.Quiet ∧
    metrics countedDrill.2.counters =
      { allowed := ((completions (accesses countedDrill.1)).countP
          fun c => c.call.granted c.result.value) % 2 ^ 64
        denied := ((completions (accesses countedDrill.1)).countP
          fun c => c.call.refused c.result.value) % 2 ^ 64
        tokensGranted := ((completions (accesses countedDrill.1)).map
          fun c => c.call.taken c.result.value).sum % 2 ^ 64 } :=
  have hquiet : countedDrill.2.Quiet := by decide +kernel
  ⟨hquiet, metrics_count_once _ _ _ (Tallied.play_run _ _ _ _) hquiet⟩

example : metrics countedDrill.2.counters = ⟨4, 1, 5⟩ := by decide +kernel

end BetterBucket.Core

import BetterBucket.Engine.Bucket
import BetterBucket.Foundation.Schedule
import BetterBucket.Protocol.Ledger

/-!
# The end of the clock

Past the last nanosecond it counts, and past the last unit, the clock stands.  The word never passes
that end, so what a frozen reading can still grant is what is left in the bucket, once.
-/

namespace BetterBucket.Core

open CasLoop MachineWords

/-- The call's reading shows the end of the clock. -/
def Frozen (self : Core) (call : Call) : Prop :=
  ∃ now ∈ call.reading, self.units now = self.units .MAX

instance (self : Core) (call : Call) : Decidable (self.Frozen call) :=
  inferInstanceAs (Decidable (∃ now ∈ call.reading, _))

variable {T : Type*} {config : BucketConfig}

theorem after_le_units_max (h : config.Valid) {w : Entry T} (hw : (new config).Logged w)
    (hbefore : w.before ≤ (new config).units .MAX) : w.after ≤ (new config).units .MAX := by
  rcases entry_cases h hw with hgrant | ⟨n, -, -, hafter⟩ | ⟨now, -, -, hafter⟩
  · exact hgrant.covered.trans (read_le_units_max h _)
  · omega
  · have := units_mono h now.asNanos_le_max
    omega

theorem linked_le_units_max (h : config.Valid) {word word' : ℕ} {ws : List (Entry T)}
    (hlinked : Linked (new config).program word ws word') (hword : word ≤ (new config).units .MAX) :
    word' ≤ (new config).units .MAX :=
  hlinked.invariant (fun _ word' => word' ≤ (new config).units .MAX) hword
    fun _ _ _ _ hinv hwrite => after_le_units_max h hwrite hinv

/-- At a frozen reading nothing short is ever due, so a call that does not take tokens is refused
for good. -/
theorem refused_of_declines (h : config.Valid) {call : Call} (hfrozen : (new config).Frozen call)
    (hrequested : 0 < call.requested) {exit : Exit Answer}
    (hdeclines : ((new config).program call).Declines exit) : exit.value.Refused := by
  obtain ⟨now, hreading, hend⟩ := hfrozen
  cases call with
  | acquire n t =>
    obtain ⟨r, hr, hvalue⟩ := declines_map hdeclines
    obtain rfl : t = now := by simpa [Call.reading] using hreading
    rw [hvalue]
    rcases acquire_declines hrequested hr with hmax | ⟨next, hlate, hrange, hwait⟩
    · exact hmax
    · rw [Answer.Refused, hwait, waitUntil_eq_none h hrange (hend ▸ hlate), Option.getD_none]
  | acquireUpTo n t =>
    obtain ⟨r, hr, hvalue⟩ := declines_map hdeclines
    rw [hvalue]
    exact acquireUpTo_declines hr
  | reserve n maxWait t =>
    obtain ⟨r, hr, hvalue⟩ := declines_map hdeclines
    rw [hvalue]
    exact reserve_declines hrequested hr
  | available t => exact absurd hrequested (lt_irrefl 0)
  | timeUntil n t => exact absurd hrequested (lt_irrefl 0)
  | refund n => exact absurd hrequested (lt_irrefl 0)
  | reset t => exact absurd hrequested (lt_irrefl 0)

/-- The frozen takes of a log of grants come out of what a frozen reading showed before it. -/
theorem frozen_taken_le (h : config.Valid)
    (hexact : 10 * config.refillAmount ≤ 43 * config.refillPeriod.asNanos) {word word' : ℕ}
    {ws : List (Entry T)} (hlinked : Linked (new config).program word ws word')
    (hgrants : ∀ w ∈ ws, w.call.isRefund = false ∧ w.call.isReset = false) {now : Duration}
    (hnow : (new config).units now = (new config).units .MAX) :
    taken (ws.filter fun w => (new config).Frozen w.call) ≤ (new config).availableIn word now := by
  have hs := (unitChoice h).nonneg_iff.mpr hexact
  set full := max word ((new config).units now - (new config).burst) with hfull
  have hfit := linked_inside_le h hlinked (fun w => (new config).Frozen w.call)
    (full + (new config).burst) ((new config).units now) hgrants ?_ ?_
  · rcases hfit with hzero | hle
    · rw [hzero]
      exact Nat.zero_le _
    · rw [zpow_of_exact hs] at hle
      have hunits : full + taken (ws.filter fun w => (new config).Frozen w.call) * (new config).grain ≤
          (new config).units now := by
        have : (full : ℚ) + taken (ws.filter fun w => (new config).Frozen w.call) * (new config).grain ≤
            (new config).units now := by
          push_cast at hle
          linarith
        exact_mod_cast this
      have hburst := burst_exact h hs
      have hcap : taken (ws.filter fun w => (new config).Frozen w.call) ≤ config.capacity := by
        refine Nat.le_of_mul_le_mul_right ?_ (grain_pos (new config))
        omega
      rw [availableIn]
      apply (cost_le_iff h hcap _).mp
      rw [cost_exact h hs hcap]
      omega
  · -- grants only move the word forward, so a frozen take starts no earlier than `full`
    intro w hw hfrozen
    obtain ⟨t, hreading, hend⟩ := hfrozen
    have hword := le_before_of_mem h hlinked hgrants hw
    have hcharged : max w.before ((new config).units now - (new config).burst) =
        (new config).charged w := by
      rw [charged_eq h hreading, base, hend, hnow]
    omega
  · intro w hw hfrozen
    have hgrant := grant_of_call h (hlinked.write?_of_mem hw) (hgrants w hw).1 (hgrants w hw).2
    rw [hnow]
    exact hgrant.covered.trans (read_le_units_max h _)

variable [DecidableEq T] {loads : Loads} {es es' : List (Event T Call ℕ (Exit Answer))}
  {s s' : State T Call ℕ}

/-- In every reachable state the word is on the clock.  Without refunds and resets, what frozen
readings take from any state on is at most what one of them shows there; once that is nothing, all
their requests are refused for good. -/
theorem end_of_clock_fails_closed (h : config.Valid)
    (hexact : 10 * config.refillAmount ≤ 43 * config.refillPeriod.asNanos) {t0 : Duration}
    (hrun : Run loads (new config).program (State.start (start config t0)) es s)
    (hrest : Run loads (new config).program s es' s') :
    s.word ≤ (new config).units .MAX ∧
      ((∀ c ∈ calls (es ++ es'), c.isRefund = false ∧ c.isReset = false) →
        ∀ now, (new config).units now = (new config).units .MAX →
          taken ((writes es').filter fun w => (new config).Frozen w.call) ≤
              (new config).availableIn s.word now ∧
            (new config).availableIn s.word now ≤ config.capacity ∧
            ((new config).availableIn s.word now = 0 → ∀ c ∈ completions es',
              (new config).Frozen c.call → 0 < c.call.requested → c.result.value.Refused)) := by
  constructor
  · exact linked_le_units_max h hrun.linked
      ((start_le_units config t0).trans (units_mono h t0.asNanos_le_max))
  · intro hcalls now hnow
    have hgrants : ∀ w ∈ writes es', w.call.isRefund = false ∧ w.call.isReset = false := by
      intro w hw
      refine hcalls w.call ((hrun.append hrest).write_invoked ?_)
      rw [writes_append]
      exact List.mem_append_right _ hw
    have htaken := frozen_taken_le h hexact hrest.linked hgrants hnow
    refine ⟨htaken, tokensIn_le h _, fun hempty c hc hfrozen hrequested => ?_⟩
    rcases mem_completions.mp hc with ⟨w, hw, rfl⟩ | hfinish
    · -- a write would take a token that is not there
      have hgrant := grant_of_call h (hrest.linked.write?_of_mem hw) (hgrants w hw).1 (hgrants w hw).2
      have hmem : w ∈ (writes es').filter fun w => (new config).Frozen w.call :=
        List.mem_filter.mpr ⟨hw, decide_eq_true hfrozen⟩
      have hle : Entry.taken w ≤ taken ((writes es').filter fun w => (new config).Frozen w.call) :=
        List.single_le_sum (by simp) _ (List.mem_map_of_mem hmem)
      have := hgrant.taken_pos
      omega
    · exact refused_of_declines h hfrozen hrequested (hrest.finishes hfinish)

/-- Three tokens at the end of the clock, one of them taken. -/
def firstToken : List (Event ℕ Call ℕ (Exit Answer)) × State ℕ Call ℕ :=
  State.play (new (Bucket.perSecond 3)).program (State.start (start (Bucket.perSecond 3) .MAX))
    [.call 0 (.acquire 1 .MAX), .advance 0, .advance 0]

/-- Then the other two, and a request and a reservation too many. -/
def lastTokens : List (Event ℕ Call ℕ (Exit Answer)) × State ℕ Call ℕ :=
  firstToken.2.play (new (Bucket.perSecond 3)).program
    [.call 0 (.acquireUpTo 5 .MAX), .advance 0, .call 1 (.reserve 1 .MAX .MAX), .advance 1,
      .advance 0, .advance 1, .advance 1, .call 0 (.acquire 1 .MAX), .advance 0, .advance 0]

theorem end_of_clock_fails_closed_lastTokens :
    taken ((writes lastTokens.1).filter fun w => (new (Bucket.perSecond 3)).Frozen w.call) = 2 ∧
      2 ≤ (new (Bucket.perSecond 3)).availableIn firstToken.2.word .MAX := by
  have htaken : taken ((writes lastTokens.1).filter fun w =>
      (new (Bucket.perSecond 3)).Frozen w.call) = 2 := by decide +kernel
  have hrun : Run .current (new (Bucket.perSecond 3)).program
      (State.start (start (Bucket.perSecond 3) .MAX)) firstToken.1 firstToken.2 := State.play_run _ _ _
  have hrest : Run .current (new (Bucket.perSecond 3)).program firstToken.2 lastTokens.1 lastTokens.2 :=
    State.play_run _ _ _
  have hbound := ((end_of_clock_fails_closed ((BucketConfig.valid_iff _).mpr (by decide)) (by decide)
    hrun hrest).2 (by decide +kernel) .MAX rfl).1
  rw [htaken] at hbound
  exact ⟨htaken, hbound⟩

end BetterBucket.Core

import BetterBucket.Arithmetic.Slack
import BetterBucket.Engine.Bucket
import BetterBucket.Foundation.Schedule
import BetterBucket.Protocol.Promises

/-!
# The queue behind a reservation

A reservation takes its tokens ahead of the clock, and whoever takes after it charges behind it.  How
far the word can be pushed ahead is bounded by what the callers are ready to wait.
-/

namespace BetterBucket

/-- How long the caller is ready to wait. -/
def Call.patience : Call → ℕ
  | .reserve _ maxWait _ => maxWait.asNanos
  | _ => 0

namespace Core

open CasLoop MachineWords ScaledClock

variable {T : Type*} {config : BucketConfig}

section Order

variable {w a b : Entry T}

/-- Callers act at their readings, all but those of reservations that are covered later. -/
theorem ends_cases (hw : (new config).Logged w) :
    w.ends = w.starts ∨ ∃ n maxWait now wait, w.call = .reserve n maxWait now ∧
      w.ends = now.asNanos + wait.asNanos ∧ wait ≤ maxWait ∧ w.after ≤ maxValue 64 ∧
      (new config).units now < w.after ∧ (new config).waitUntil w.after now = some wait := by
  have heffect := effect_of_write hw
  have hends : w.ends = w.starts + w.call.waited w.result.value := rfl
  have hstarts : w.starts = w.call.readingNanos := rfl
  generalize w.call = call at heffect hends hstarts ⊢
  generalize w.result.value = answer at heffect hends
  generalize w.after = word at heffect ⊢
  cases heffect with
  | acquire | acquireUpTo | refund | reset => exact .inl hends
  | @reserve n maxWait now wait hpos hcap hrange hmax hsome =>
    have hreading : w.starts = now.asNanos := hstarts
    split at hsome
    · -- covered at once: no wait
      simp only [Option.some.injEq] at hsome
      subst hsome
      exact .inl hends
    · rename_i hlate
      exact .inr ⟨n, maxWait, now, wait, rfl, hreading ▸ hends, hmax, hrange, not_le.mp hlate, hsome⟩

/-- A caller that is told to wait acts less than a millisecond after its tokens are covered. -/
theorem ends_lt_due (h : config.Valid) (hw : (new config).Logged w) (hwait : w.starts < w.ends) :
    w.ends < (new config).clock.due w.after + NANOS_PER_MILLI := by
  rcases ends_cases hw with hsame | ⟨n, maxWait, now, wait, -, hends, -, hrange, hlate, hsome⟩
  · exact absurd hsame hwait.ne'
  · rw [hends]
    exact (waitUntil_lt h hrange hsome hlate).2

/-- Between two takes of a log the word only moves forward. -/
theorem linked_ordered (h : config.Valid) {word word' : ℕ} {ws : List (Entry T)}
    (hlinked : Linked (new config).program word ws word')
    (hgrants : ∀ w ∈ ws, w.call.isRefund = false ∧ w.call.isReset = false) :
    ws.Pairwise fun a b => a.after ≤ b.before := by
  induction ws generalizing word with
  | nil => exact .nil
  | cons w ws ih =>
    rw [List.forall_mem_cons] at hgrants
    obtain ⟨-, -, hrest⟩ := hlinked
    exact List.pairwise_cons.mpr
      ⟨fun b hb => le_before_of_mem h hrest hgrants.2 hb, ih hrest hgrants.2⟩

/-- A take on a later word is covered no earlier than its tokens and all before them are. -/
theorem dueFor_le_ends (h : config.Valid) (hgrant : (new config).Grant b) (hafter : a.after ≤ b.before) :
    (new config).dueFor b.taken a.after ≤ b.ends := by
  have htarget : a.after + (new config).cost b.taken ≤ (new config).clock.read b.ends := by
    have hcharge := hgrant.before_add_cost_le
    have hcovered := hgrant.covered
    omega
  have hrange := htarget.trans ((new config).clock.read_le_limit _)
  rw [Clock.le_read_iff _ (rateBounds h).pos hrange] at htarget
  exact htarget.trans (min_le_left _ _)

variable [DecidableEq T] {es : List (Event T Call ℕ (Exit Answer))} {s : State T Call ℕ}

/-- In the order of their commits, whatever their readings, each take acts no earlier than its own
tokens are covered on top of those before it; so nobody acts a millisecond before a reservation that
waits. -/
theorem takes_queue (h : config.Valid) {t0 : Duration}
    (hrun : Run .anyEarlier (new config).program (State.start (start config t0)) es s)
    (hcalls : ∀ c ∈ calls es, c.isRefund = false ∧ c.isReset = false) :
    (writes es).Pairwise fun a b : Entry T =>
      (new config).dueFor b.taken a.after ≤ b.ends ∧
        (a.starts < a.ends → a.ends < b.ends + NANOS_PER_MILLI) := by
  have hlog : ∀ w ∈ writes es, w.call.isRefund = false ∧ w.call.isReset = false :=
    fun w hw => hcalls w.call (hrun.write_invoked hw)
  -- whatever their readings, later takes find a word no earlier than the one left before them
  refine (linked_ordered h hrun.linked hlog).imp_of_mem fun {a b} ha hb hafter => ?_
  have hgrant := grant_of_call h (hrun.linked.write?_of_mem hb) (hlog b hb).1 (hlog b hb).2
  have hdue := dueFor_le_ends h hgrant hafter
  refine ⟨hdue, fun hwait => ?_⟩
  have hends := ends_lt_due h (hrun.linked.write?_of_mem ha) hwait
  have hmono : (new config).clock.due a.after ≤ (new config).dueFor b.taken a.after :=
    (new config).clock.due_mono (rateBounds h).pos (Nat.le_add_right _ _)
  omega

/-- A burst, then a reservation of two behind it, and between its steps a token that is there only
after both. -/
def queueDrill : List (Event ℕ Call ℕ (Exit Answer)) × State ℕ Call ℕ :=
  State.play (new (Bucket.perSecond 3)).program (State.start (start (Bucket.perSecond 3) .zero))
    [.call 0 (.acquire 3 .zero), .call 1 (.reserve 2 (.fromSecs 2) .zero), .advance 0, .advance 1,
      .advance 0, .advance 1, .advance 1, .call 0 (.acquire 1 (.fromSecs 1)), .advance 0, .advance 0]

/-- The reservation waits 667 ms, and the token after it is granted at one second. -/
theorem takes_queue_queueDrill : (writes queueDrill.1).length = 3 ∧
    (writes queueDrill.1).Pairwise fun a b : Entry ℕ =>
      (new (Bucket.perSecond 3)).dueFor b.taken a.after ≤ b.ends ∧
        (a.starts < a.ends → a.ends < b.ends + NANOS_PER_MILLI) :=
  ⟨by decide +kernel, takes_queue (Bucket.perSecond_valid (by decide))
    (State.play_run _ _ _).anyEarlier (by decide +kernel)⟩

end Order

/-! ## How far ahead -/

section Debt

variable {w : Entry T} {latest patience : ℕ}

/-- A caller acts within its patience of its reading. -/
theorem ends_le (hw : (new config).Logged w) (hreading : w.starts ≤ latest)
    (hpatience : w.call.patience ≤ patience) : w.ends ≤ latest + patience := by
  rcases ends_cases hw with hsame | ⟨n, maxWait, now, wait, hcall, hends, hmax, -⟩
  · exact hsame.le.trans (Nat.le_add_right_of_le hreading)
  · have hstarts : w.starts = now.asNanos := by
      rw [Entry.starts, hcall]
      rfl
    have hwait : wait.asNanos ≤ patience := by
      rw [hcall] at hpatience
      exact Nat.le_trans hmax hpatience
    rw [hends, ← hstarts]
    exact Nat.add_le_add hreading hwait

theorem after_le_read (h : config.Valid) (hw : (new config).Logged w)
    (hreading : w.starts ≤ latest) (hpatience : w.call.patience ≤ patience)
    (hbefore : w.before ≤ (new config).clock.read (latest + patience)) :
    w.after ≤ (new config).clock.read (latest + patience) := by
  rcases entry_cases h hw with hgrant | ⟨n, -, -, hafter⟩ | ⟨now, hcall, -, hafter⟩
  · exact hgrant.covered.trans ((new config).clock.read_mono (ends_le hw hreading hpatience))
  · omega
  · rw [Entry.starts, hcall] at hreading
    change now.asNanos ≤ latest at hreading
    have hread := (new config).clock.read_mono (hreading.trans (Nat.le_add_right latest patience))
    rw [hafter, units_eq h]
    omega

variable [DecidableEq T] {es : List (Event T Call ℕ (Exit Answer))} {s : State T Call ℕ} {t0 : Duration}

/-- However the calls interleave, the word stays on the clock of the latest end of a wait. -/
theorem word_le_read (h : config.Valid) (ht0 : t0.asNanos ≤ latest)
    (hrun : Run .anyEarlier (new config).program (State.start (start config t0)) es s)
    (hcalls : ∀ c ∈ calls es, c.readingNanos ≤ latest ∧ c.patience ≤ patience) :
    s.word ≤ (new config).clock.read (latest + patience) := by
  have hstart : start config t0 ≤ (new config).clock.read (latest + patience) := by
    have hread := (new config).clock.read_mono (ht0.trans (Nat.le_add_right latest patience))
    rw [← units_eq h] at hread
    exact (start_le_units config t0).trans hread
  exact hrun.linked.invariant (fun _ word => word ≤ (new config).clock.read (latest + patience)) hstart
    fun pre w post hsplit hinv hwrite =>
      have hbounded := hcalls w.call (hrun.write_invoked (by rw [hsplit]; simp))
      after_le_read h hwrite hbounded.1 hbounded.2 hinv

/-- What accrues at the exact rate, the clock gains. -/
theorem read_add_tokens_le (h : config.Valid) (hs : 0 ≤ (new config).unitShift) {a b n : ℕ}
    (hrange : (new config).clock.InRange b) (hab : a ≤ b)
    (hn : (n : ℚ) ≤ config.accrued ((b : ℚ) - a)) :
    (new config).clock.read a + n * (new config).grain ≤ (new config).clock.read b := by
  have hgain := (new config).clock.read_add_scaled_le hrange hab
  have hspan : ((b : ℚ) - a) = ((b - a : ℕ) : ℚ) := (Nat.cast_sub hab).symm
  have hunits : (n * (new config).grain : ℚ) < scaled 64 (new config).rate (b - a) + 1 := by
    have hgrain : (0 : ℚ) ≤ 2 ^ (new config).unitShift := by positivity
    calc (n * (new config).grain : ℚ) = n * 2 ^ (new config).unitShift := by rw [zpow_of_exact hs]
      _ ≤ config.accrued ((b - a : ℕ) : ℚ) * 2 ^ (new config).unitShift := by
          rw [← hspan]
          exact mul_le_mul_of_nonneg_right hn hgrain
      _ = ((b - a : ℕ) : ℚ) * flow config := by rw [accrued_mul_unit]; ring
      _ ≤ ((b - a : ℕ) : ℚ) * speed 64 (new config).rate :=
          mul_le_mul_of_nonneg_left (flow_le_speed h) (Nat.cast_nonneg _)
      _ < scaled 64 (new config).rate (b - a) + 1 := mul_speed_lt_scaled_add_one _ _ _
  have hunitsN : n * (new config).grain < scaled 64 (new config).rate (b - a) + 1 := by
    exact_mod_cast hunits
  change (new config).clock.read a + scaled 64 (new config).rate (b - a) ≤ _ at hgain
  omega

/-- Once what a request asks for has accrued since the last wait can have ended, it is granted, and
nobody was ever told to wait a millisecond longer. -/
theorem recovers_within (h : config.Valid)
    (hexact : 10 * config.refillAmount ≤ 43 * config.refillPeriod.asNanos) (ht0 : t0.asNanos ≤ latest)
    (hrun : Run .anyEarlier (new config).program (State.start (start config t0)) es s)
    (hcalls : ∀ c ∈ calls es, c.readingNanos ≤ latest ∧ c.patience ≤ patience) {n : ℕ} (hcap : n ≤ config.capacity)
    {t : Duration} (hrange : (new config).clock.InRange t.asNanos) (hlater : latest + patience ≤ t.asNanos)
    (haccrued : (n : ℚ) ≤ config.accrued ((t.asNanos : ℚ) - (latest + patience : ℕ))) :
    (new config).answer (.acquire n t) s.word = .decision .allowed ∧
      ∀ now : Duration, ∃ w, (new config).answer (.timeUntil n now) s.word = .wait (some w) ∧
        (w = .zero ∨ now.asNanos + w.asNanos < t.asNanos + NANOS_PER_MILLI) := by
  have hs := (unitChoice h).nonneg_iff.mpr hexact
  -- the word stopped at `latest + patience`, and the clock gains the tokens from there
  have hword := word_le_read h ht0 hrun hcalls
  have hgain := read_add_tokens_le h hs hrange hlater haccrued
  have hcovered : s.word + (new config).cost n ≤ (new config).units t := by
    rw [units_eq h, cost_exact h hs hcap]
    omega
  refine ⟨(acquire_allowed_iff h n s.word t).mpr (waitFor_of_due h hcap hcovered), fun now => ?_⟩
  rw [timeUntil_answer]
  rcases Nat.eq_zero_or_pos n with rfl | hpos
  · exact ⟨.zero, rfl, .inl rfl⟩
  -- the due instant is a reading, so there is a wait for it from any other
  have hrangeWord := hcovered.trans (units_le h t)
  have hdue := (le_units_iff h hrangeWord t).mp hcovered
  cases hw : (new config).waitFor n s.word now with
  | none => exact absurd ⟨hrangeWord, hdue.2⟩ ((waitFor_eq_none_iff h hpos hcap).mp hw)
  | some w =>
    refine ⟨w, rfl, or_iff_not_imp_left.mpr fun hne => ?_⟩
    have htight := (lt_dueFor_of_waitFor h hpos hcap hw hne).2.2
    unfold dueFor at htight
    omega

/-- Two seconds at most after the latest reading the bucket is out of debt, and a second later full. -/
theorem recovers_within_queueDrill :
    (new (Bucket.perSecond 3)).answer (.acquire 3 (.fromSecs 4)) queueDrill.2.word = .decision .allowed :=
  have hcalls : ∀ c ∈ calls queueDrill.1, c.readingNanos ≤ 10 ^ 9 ∧ c.patience ≤ 2 * 10 ^ 9 := by
    decide +kernel
  (recovers_within (Bucket.perSecond_valid (by decide)) (by decide) (Nat.zero_le _)
    (State.play_run _ _ _).anyEarlier hcalls (by decide) ⟨by decide +kernel, by decide +kernel⟩
    (by decide) (by decide +kernel)).1

end Debt

end Core

end BetterBucket

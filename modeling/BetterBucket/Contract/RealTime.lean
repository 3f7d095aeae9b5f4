import BetterBucket.Arithmetic.Slack
import BetterBucket.Foundation.Schedule
import BetterBucket.Protocol.ClockedRun

/-!
# Grants dated by their commits

A caller that stalls between its clock reading and its exchange clamps the word against a "full" of
long ago.  The bounds on what commits inside a window of real time, and on what a bucket grants
across resets, hold in the runs where no commit profits from that: the conditions are
`ChargesFresh` and `ChargesOverwritten`.
-/

namespace BetterBucket

open CasLoop BetterBucket.Core

variable {T : Type*}

/-! ## Windows of real time -/

/-- At the instant the entry commits, a fresh reading would not charge a later word. -/
def ChargesFresh (config : BucketConfig) (since : ℕ → ℕ → Duration) (createdAt : ℕ) (instant : ℕ → ℕ)
    (w : Entry T) : Prop :=
  (new config).units ((Bucket.withConfigAndClock config createdAt).elapsedAt since (instant w.effect)) -
    (new config).burst ≤ (new config).charged w

instance (config : BucketConfig) (since : ℕ → ℕ → Duration) (createdAt : ℕ) (instant : ℕ → ℕ) (w : Entry T) :
    Decidable (ChargesFresh config since createdAt instant w) :=
  inferInstanceAs (Decidable (_ ≤ _))

variable [DecidableEq T] {loads : Loads} {config : BucketConfig} {since : ℕ → ℕ → Duration} {createdAt : ℕ}
  {instant : ℕ → ℕ} {es : List (Event T Call ℕ (Exit Answer))} {s : State T Call ℕ}

/-- What commits inside `[a, b]` fits the capacity and the refill of the window, in every run whose
grants charge a fresh word. -/
theorem committed_within_le (hvalid : config.Valid)
    (hrun : ClockedRun loads config since createdAt instant es s)
    (hcalls : ∀ c ∈ calls es, c.isAcquire = true)
    (hfresh : ∀ w ∈ writes es, ChargesFresh config since createdAt instant w) {a b : ℕ} (hab : a ≤ b) :
    (taken ((writes es).filter fun w => a ≤ instant w.effect ∧ instant w.effect ≤ b) : ℚ) ≤
      config.capacity + config.accrued ((b : ℚ) - a + 4) + resolution := by
  have hlog : ∀ w ∈ writes es, w.call.isAcquire = true :=
    fun w hw => hcalls w.call (hrun.run.write_invoked hw)
  have hread : ∀ {x y : ℕ}, x ≤ y → (new config).clock.read (elapsedNanos config since createdAt x) ≤
      (new config).clock.read (elapsedNanos config since createdAt y) :=
    fun hxy => (new config).clock.read_mono (hrun.measures.elapsedNanos_mono config createdAt hxy)
  have hfit := linked_inside_le hvalid hrun.run.linked
    (fun w => a ≤ instant w.effect ∧ instant w.effect ≤ b)
    ((new config).clock.read (elapsedNanos config since createdAt a))
    ((new config).clock.read (elapsedNanos config since createdAt b)) ?_ ?_ ?_
  · set inside := taken ((writes es).filter fun w => a ≤ instant w.effect ∧ instant w.effect ≤ b)
    rcases hfit with hzero | hle
    · rw [hzero, Nat.cast_zero]
      exact config.allowance_nonneg hab
    · have hburst : (new config).cost config.capacity = (new config).burst := rfl
      have hbound : (inside : ℚ) ≤ _ := tokens_le_of_read hvalid le_rfl
        (a := elapsedNanos config since createdAt a) (b := elapsedNanos config since createdAt b)
        (by rw [hburst]; linarith)
      have hspan := hrun.measures.elapsedNanos_sub_le config createdAt hab
      have hmono := config.accrued_mono (add_le_add_left hspan 4)
      linarith
  · intro w hw
    exact ⟨Call.isRefund_of_isAcquire (hlog w hw), Call.isReset_of_isAcquire (hlog w hw)⟩
  · -- a fresh charge in the window is to a word full no earlier than its start
    intro w hw hin
    have hcharge := hfresh w hw
    rw [ChargesFresh, units_eq hvalid] at hcharge
    have hstart := hread hin.1
    unfold elapsedNanos at hstart ⊢
    omega
  · intro w hw hin
    exact (hrun.after_le hvalid hw (.inl (hlog w hw))).trans (hread hin.2)

/-- A clock that stands at its creation for `k` steps and then shows `late`. -/
def leap (k late : ℕ) : ℕ → ℕ := fun step => if step < k then 0 else late

theorem leap_monotone (k late : ℕ) : Monotone (leap k late) := by
  intro a b hab
  unfold leap
  split_ifs <;> omega

/-- One token a second for one caller, who takes it at once and again a second later. -/
def patientCaller : List (Event ℕ Call ℕ (Exit Answer)) × State ℕ Call ℕ :=
  State.play (new (Bucket.perSecond 1)).program (State.start (Bucket.start (Bucket.perSecond 1)))
    [.call 0 (.acquire 1 .zero), .advance 0, .advance 0, .call 0 (.acquire 1 (.fromSecs 1)),
      .advance 0, .advance 0]

theorem committed_within_le_patientCaller :
    (2 : ℚ) ≤ 1 + (Bucket.perSecond 1).accrued ((1000000000 : ℕ) - (0 : ℕ) + 4) + resolution := by
  have hrun : ClockedRun .current (Bucket.perSecond 1) nanosSince 0 (leap 3 1000000000) patientCaller.1
      patientCaller.2 :=
    ⟨nanosSince_measures, leap_monotone _ _, fun _ => Nat.zero_le _, State.play_run _ _ _, by decide +kernel⟩
  have hbound := committed_within_le ((BucketConfig.valid_iff _).mpr (by decide)) hrun
    (by decide +kernel) (by decide +kernel) (Nat.zero_le 1000000000)
  have htaken : taken ((writes patientCaller.1).filter fun w =>
      0 ≤ leap 3 1000000000 w.effect ∧ leap 3 1000000000 w.effect ≤ 1000000000) = 2 := by decide +kernel
  rw [htaken] at hbound
  exact_mod_cast hbound

/-- Two callers of a bucket of one token a second: the first reads the clock and stalls for ten
seconds, then both commit. -/
def stalledCaller : List (Event ℕ Call ℕ (Exit Answer)) × State ℕ Call ℕ :=
  State.play (new (Bucket.perSecond 1)).program (State.start (Bucket.start (Bucket.perSecond 1)))
    [.call 0 (.acquire 1 .zero), .advance 0, .advance 0, .call 1 (.acquire 1 (.fromSecs 10)),
      .advance 1, .advance 1]

/-- The stalled caller is charged to a second long past, the fresh one to the present: two tokens
leave a bucket of one token a second at one instant. -/
theorem stalledCaller_over_grants :
    (Bucket.perSecond 1).Valid ∧
      ClockedRun .current (Bucket.perSecond 1) nanosSince 0 (leap 1 10000000000) stalledCaller.1 stalledCaller.2 ∧
      (∀ c ∈ calls stalledCaller.1, c.isAcquire = true) ∧
      ∃ a b : ℕ, a ≤ b ∧ (Bucket.perSecond 1).capacity +
          (Bucket.perSecond 1).accrued ((b : ℚ) - a + 4) + resolution <
        taken ((writes stalledCaller.1).filter fun w =>
          a ≤ leap 1 10000000000 w.effect ∧ leap 1 10000000000 w.effect ≤ b) := by
  refine ⟨(BucketConfig.valid_iff _).mpr (by decide),
    ⟨nanosSince_measures, leap_monotone _ _, fun _ => Nat.zero_le _, State.play_run _ _ _, by decide +kernel⟩,
    by decide +kernel, 10000000000, 10000000000, le_rfl, ?_⟩
  have htaken : taken ((writes stalledCaller.1).filter fun w =>
      10000000000 ≤ leap 1 10000000000 w.effect ∧ leap 1 10000000000 w.effect ≤ 10000000000) = 2 := by
    decide +kernel
  have hcap : (Bucket.perSecond 1).capacity = 1 := rfl
  have hamount : (Bucket.perSecond 1).refillAmount = 1 := rfl
  have hperiod : (Bucket.perSecond 1).refillPeriod.asNanos = 1000000000 := rfl
  rw [htaken, hcap, BucketConfig.accrued, hamount, hperiod, resolution]
  norm_num

/-! ## Resets -/

def resets (ws : List (Entry T)) : ℕ := ws.countP fun w => w.call.isReset

/-- No take charges a word more than a burst before one that an earlier reset had overwritten. -/
def ChargesOverwritten (config : BucketConfig) (ws : List (Entry T)) : Prop :=
  ws.Pairwise fun r w => r.call.isReset = true → w.call.isReset = false →
    r.before ≤ (new config).charged w + (new config).burst

instance (config : BucketConfig) (ws : List (Entry T)) : Decidable (ChargesOverwritten config ws) :=
  inferInstanceAs (Decidable (List.Pairwise _ _))

section Reached

omit [DecidableEq T]

/-- Grants and resets that started at `word` and stay below `top`: what was taken is paid for by a
burst a reset and the way from `word` to `reach`, which is no later than the word, or than a burst
before a word some reset threw away. -/
def Reached (config : BucketConfig) (word top : ℕ) (ws : List (Entry T)) (word' : ℕ) : Prop :=
  word' ≤ top ∧ ∃ reach : ℚ, reach ≤ top ∧
    (reach ≤ word' ∨ ∃ r ∈ ws, r.call.isReset = true ∧ reach + (new config).burst ≤ r.before) ∧
    (taken ws : ℚ) * 2 ^ (new config).unitShift + word ≤ resets ws * (new config).burst + reach

variable {word word' top : ℕ} {ws : List (Entry T)} {w : Entry T}

/-- A take after a reset starts over, but no more than a burst below the word it threw away. -/
theorem Reached.grant (h : Reached config word top ws w.before) (hvalid : config.Valid)
    (hgrant : (new config).Grant w) (htop : w.after ≤ top)
    (hover : ∀ r ∈ ws, r.call.isReset = true → r.before ≤ (new config).charged w + (new config).burst) :
    Reached config word top (ws ++ [w]) w.after := by
  obtain ⟨-, reach, -, hfrom, hle⟩ := h
  have hprice := tokens_le_cost hvalid hgrant.taken_le
  have hcharge : (w.after : ℚ) = (new config).charged w + (new config).cost w.taken := by
    exact_mod_cast hgrant.after_eq
  have hcharged : reach ≤ (new config).charged w := by
    rcases hfrom with hword | ⟨r, hr, hreset, hrle⟩
    · refine hword.trans ?_
      exact_mod_cast (le_max_left _ _ : w.before ≤ (new config).charged w)
    · have hpair : (r.before : ℚ) ≤ (new config).charged w + (new config).burst := by
        exact_mod_cast hover r hr hreset
      linarith
  have hresets : resets (ws ++ [w]) = resets ws := by simp [resets, hgrant.not_reset]
  refine ⟨htop, w.after, by exact_mod_cast htop, .inl le_rfl, ?_⟩
  rw [hresets, taken_append, taken_cons, taken_nil, Nat.add_zero, Nat.cast_add, add_mul]
  linarith

theorem Reached.reset (h : Reached config word top ws w.before) (hreset : w.call.isReset = true)
    (htop : w.after ≤ top) : Reached config word top (ws ++ [w]) w.after := by
  obtain ⟨hbefore, reach, hreach, hfrom, hle⟩ := h
  have hbeforeQ : (w.before : ℚ) ≤ top := by exact_mod_cast hbefore
  have hburst : (0 : ℚ) ≤ (new config).burst := by positivity
  have htaken : w.taken = 0 := Call.taken_of_isReset hreset w.result.value
  have hresets : (resets (ws ++ [w]) : ℚ) = resets ws + 1 := by simp [resets, hreset]
  refine ⟨htop, ?_⟩
  rw [hresets, taken_append, taken_cons, taken_nil, htaken, Nat.add_zero, add_mul, one_mul]
  -- the reset moves `reach` back by a burst, unless an older reset holds it
  rcases hfrom with hword | ⟨r, hr, hrreset, hrle⟩
  · exact ⟨w.before - (new config).burst, by linarith, .inr ⟨w, by simp, hreset, by linarith⟩,
      by linarith⟩
  · exact ⟨reach, hreach, .inr ⟨r, by simp [hr], hrreset, hrle⟩, by linarith⟩

theorem linked_resets_le (hvalid : config.Valid)
    (hlinked : Linked (new config).program word ws word')
    (hgrants : ∀ w ∈ ws, w.call.isRefund = false) (hover : ChargesOverwritten config ws)
    (hstart : word ≤ top) (htop : ∀ w ∈ ws, w.after ≤ top) :
    (taken ws : ℚ) * 2 ^ (new config).unitShift + word ≤ resets ws * (new config).burst + top := by
  have hreached : Reached config word top ws word' := by
    refine hlinked.invariant (Reached config word top)
      ⟨hstart, word, by exact_mod_cast hstart, .inl le_rfl, by simp [resets]⟩ ?_
    intro pre (w : Entry T) post hsplit hinv hwrite
    have hmem : w ∈ ws := by simp [hsplit]
    cases hreset : w.call.isReset with
    | true => exact hinv.reset hreset (htop w hmem)
    | false =>
      refine hinv.grant hvalid (grant_of_call hvalid hwrite (hgrants w hmem) hreset) (htop w hmem) ?_
      intro r hr hrreset
      rw [ChargesOverwritten, hsplit, List.pairwise_append] at hover
      exact hover.2.2 r hr w (by simp) hrreset hreset
  obtain ⟨-, reach, hreach, -, hle⟩ := hreached
  linarith

end Reached

/-- By the time the clock shows `now`, the tokens granted are at most a burst for every reset, one
more for the initial fill, and the refill since creation, in every run whose takes charge a word no
more than a burst before any that a reset had overwritten. -/
theorem granted_le_of_resets (hvalid : config.Valid)
    (hexact : 10 * config.refillAmount ≤ 43 * config.refillPeriod.asNanos)
    (hrun : ClockedRun loads config since createdAt instant es s)
    (hcalls : ∀ c ∈ calls es, c.isAcquire = true ∨ c.isReset = true)
    (hover : ChargesOverwritten config (writes es)) {now : ℕ} (hcreated : createdAt ≤ now)
    (hnow : ∀ k < es.length, instant k ≤ now) :
    (taken (writes es) : ℚ) ≤
      (resets (writes es) + 1) * (config.capacity + resolution + config.accrued 4) +
        config.accrued ((now : ℚ) - createdAt) := by
  have hlog : ∀ w ∈ writes es, w.call.isAcquire = true ∨ w.call.isReset = true :=
    fun w hw => hcalls w.call (hrun.run.write_invoked hw)
  set top := (new config).clock.read (elapsedNanos config since createdAt now)
  have hzero := hrun.measures.elapsedNanos_createdAt config createdAt
  have hfirst : (new config).clock.read 0 ≤ top :=
    (new config).clock.read_mono (Nat.zero_le _)
  have hunits : (new config).units .zero = (new config).clock.read 0 := units_eq hvalid .zero
  have hbound := linked_resets_le hvalid hrun.run.linked (fun w hw => ?_) hover
    ((start_le_units config .zero).trans (hunits ▸ hfirst)) (fun w hw => ?_)
  · -- the first fill and each reset pay for a bucketful, with its own rounding
    have hs := (unitChoice hvalid).nonneg_iff.mpr hexact
    have hstart : ((new config).clock.read 0 : ℚ) ≤
        Bucket.start config + (new config).cost config.initial := by
      rw [← hunits]
      exact_mod_cast units_le_start_add config .zero
    rw [burst_le_of_exact hvalid hs, State.start_word] at hbound
    have htokens : (taken (writes es) : ℚ) - resets (writes es) * config.capacity ≤ _ :=
      tokens_le_of_read hvalid config.initial_le (a := 0) (b := elapsedNanos config since createdAt now)
        (by linarith)
    have hspan := hrun.measures.elapsedNanos_sub_le config createdAt hcreated
    rw [hzero] at hspan
    have haccrued := config.accrued_mono (add_le_add_left hspan 4)
    have hsplit := config.accrued_add ((now : ℚ) - createdAt) 4
    have hinitial : (config.initial : ℚ) ≤ config.capacity := by exact_mod_cast config.initial_le
    have hslack : 0 ≤ resets (writes es) * (resolution + config.accrued 4) := by
      have := config.accrued_nonneg (by norm_num : (0 : ℚ) ≤ 4)
      have := resolution_nonneg
      positivity
    linarith
  · exact (hlog w hw).elim Call.isRefund_of_isAcquire Call.isRefund_of_isReset
  · -- every write happened by now, at a reading no later
    have hlt := (hrun.run.positions.written w hw).2.1
    rw [← hrun.run.positions.length] at hlt
    exact (hrun.after_le hvalid hw (hlog w hw)).trans
      ((new config).clock.read_mono (hrun.measures.elapsedNanos_mono config createdAt (hnow _ hlt)))

/-- A token a second: one taken at once, a reset a second later, one more. -/
def promptReset : List (Event ℕ Call ℕ (Exit Answer)) × State ℕ Call ℕ :=
  State.play (new (Bucket.perSecond 1)).program (State.start (Bucket.start (Bucket.perSecond 1)))
    [.call 0 (.acquire 1 .zero), .advance 0, .advance 0, .call 1 (.reset (.fromSecs 1)), .advance 1,
      .call 0 (.acquire 1 (.fromSecs 1)), .advance 0, .advance 0]

theorem granted_le_of_resets_promptReset :
    (2 : ℚ) ≤ (1 + 1) * (1 + resolution + (Bucket.perSecond 1).accrued 4) +
      (Bucket.perSecond 1).accrued ((1000000000 : ℕ) - (0 : ℕ)) := by
  have hrun : ClockedRun .current (Bucket.perSecond 1) nanosSince 0 (leap 3 1000000000) promptReset.1
      promptReset.2 :=
    ⟨nanosSince_measures, leap_monotone _ _, fun _ => Nat.zero_le _, State.play_run _ _ _, by decide +kernel⟩
  have hbound := granted_le_of_resets ((BucketConfig.valid_iff _).mpr (by decide)) (by decide) hrun
    (by decide +kernel) (by decide +kernel) (Nat.zero_le 1000000000) (by decide +kernel)
  have htaken : taken (writes promptReset.1) = 2 := by decide +kernel
  have hresets : resets (writes promptReset.1) = 1 := by decide +kernel
  rw [htaken, hresets] at hbound
  exact_mod_cast hbound

/-- A token a second.  One is taken at creation, where a reset and another caller read the clock and
stall.  A second later the next token is taken, the reset and the stalled caller commit, and the
token of the present is there a second time. -/
def staleReset : List (Event ℕ Call ℕ (Exit Answer)) × State ℕ Call ℕ :=
  State.play (new (Bucket.perSecond 1)).program (State.start (Bucket.start (Bucket.perSecond 1)))
    [.call 0 (.acquire 1 .zero), .advance 0, .advance 0, .call 1 (.reset .zero),
      .call 2 (.acquire 1 .zero), .call 0 (.acquire 1 (.fromSecs 1)), .advance 0, .advance 0,
      .advance 1, .advance 2, .advance 2, .call 0 (.acquire 1 (.fromSecs 1)), .advance 0, .advance 0]

/-- Four tokens with one reset and one second of refill: a stale reset forgets a charge it never
saw, which is worth more than the burst it adds. -/
theorem staleReset_over_grants :
    (Bucket.perSecond 1).Valid ∧
      10 * (Bucket.perSecond 1).refillAmount ≤ 43 * (Bucket.perSecond 1).refillPeriod.asNanos ∧
      ClockedRun .current (Bucket.perSecond 1) nanosSince 0 (leap 5 1000000000) staleReset.1 staleReset.2 ∧
      (∀ c ∈ calls staleReset.1, c.isAcquire = true ∨ c.isReset = true) ∧
      (∀ k, leap 5 1000000000 k ≤ 1000000000) ∧
      (resets (writes staleReset.1) + 1) * ((Bucket.perSecond 1).capacity + resolution +
          (Bucket.perSecond 1).accrued 4) + (Bucket.perSecond 1).accrued (1000000000 - 0) <
        taken (writes staleReset.1) := by
  refine ⟨(BucketConfig.valid_iff _).mpr (by decide), by decide,
    ⟨nanosSince_measures, leap_monotone _ _, fun _ => Nat.zero_le _, State.play_run _ _ _, by decide +kernel⟩,
    by decide +kernel, fun k => ?_, ?_⟩
  · unfold leap
    split_ifs <;> omega
  · have htaken : taken (writes staleReset.1) = 4 := by decide +kernel
    have hresets : resets (writes staleReset.1) = 1 := by decide +kernel
    have hcap : (Bucket.perSecond 1).capacity = 1 := rfl
    have hamount : (Bucket.perSecond 1).refillAmount = 1 := rfl
    have hperiod : (Bucket.perSecond 1).refillPeriod.asNanos = 1000000000 := rfl
    rw [htaken, hresets, hcap, BucketConfig.accrued, BucketConfig.accrued, hamount, hperiod, resolution]
    norm_num

end BetterBucket

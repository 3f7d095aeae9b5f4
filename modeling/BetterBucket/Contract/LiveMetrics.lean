import BetterBucket.Arithmetic.Slack
import BetterBucket.Contract.Counting
import BetterBucket.Foundation.InFlight
import BetterBucket.Protocol.Ledger

/-!
# The counters while calls go on

What a snapshot of the counters says of the decisions made so far, and of the configured rate.
-/

namespace BetterBucket.Core

open CasLoop MachineWords

variable {T : Type*} {config : BucketConfig}

/-- Tokens the completed calls have taken. -/
def tokensTaken (cs : List (Completion T Call (Exit Answer))) : ℕ :=
  (cs.map fun c => c.call.taken c.result.value).sum

section Due

variable {cs : List (Completion T Call (Exit Answer))}
  (hrecord : ∀ c ∈ cs, c.result.record = recordOf c.call c.result.value)

include hrecord

theorem dueAt_allowed : dueAt Exit.updates .allowed cs = cs.countP fun c => c.call.granted c.result.value := by
  rw [dueAt, List.map_congr_left fun c hc => amountAt_allowed (hrecord c hc), sum_map_toNat]

theorem dueAt_denied : dueAt Exit.updates .denied cs = cs.countP fun c => c.call.refused c.result.value := by
  rw [dueAt, List.map_congr_left fun c hc => amountAt_denied (hrecord c hc), sum_map_toNat]

theorem dueAt_tokensGranted : dueAt Exit.updates .tokensGranted cs = tokensTaken cs := by
  rw [dueAt, List.map_congr_left fun c hc => amountAt_tokensGranted (hrecord c hc), tokensTaken]

end Due

variable [DecidableEq T] {loads : Loads} {word : ℕ}

theorem run_records {self : Core} {es : List (TallyEvent T Call ℕ (Exit Answer) Counter)} {s : Metered T}
    (hrun : TallyRun loads self.program Exit.updates (.start word) es s) :
    ∀ c ∈ completions (accesses es), c.result.record = recordOf c.call c.result.value :=
  fun c hc => hrun.run.returns hc (self.program_records c.call)

/-- No call takes more than a full bucket. -/
theorem taken_le_capacity (h : config.Valid) {es : List (Event T Call ℕ (Exit Answer))}
    {s s' : State T Call ℕ} (hrun : Run loads (new config).program s es s')
    {c : Completion T Call (Exit Answer)} (hc : c ∈ completions es) :
    c.call.taken c.result.value ≤ config.capacity := by
  rcases mem_completions.mp hc with ⟨w, hw, rfl⟩ | hfinish
  · have hlogged := hrun.linked.write?_of_mem hw
    rcases entry_cases (w := w) h hlogged with hgrant | ⟨n, -, hzero, -⟩ | ⟨now, -, hzero, -⟩
    · exact hgrant.taken_le
    · exact hzero.trans_le (Nat.zero_le _)
    · exact hzero.trans_le (Nat.zero_le _)
  · rw [taken_of_declines (hrun.finishes hfinish)]
    exact Nat.zero_le _

section Snapshot

variable [Fintype T] {es₁ es₂ es₃ : List (TallyEvent T Call ℕ (Exit Answer) Counter)} {s₁ s₂ s₃ : Metered T}

/-- A snapshot taken while calls go on never counts a decision before it is made, and misses of those
made before it began no more than one of each thread. -/
theorem metrics_in_flight (h : config.Valid)
    (hfirst : TallyRun loads (new config).program Exit.updates (.start word) es₁ s₁)
    (hsecond : TallyRun loads (new config).program Exit.updates s₁ es₂ s₂)
    (hthird : TallyRun loads (new config).program Exit.updates s₂ es₃ s₃)
    (hcalls : (completions (accesses (es₁ ++ es₂ ++ es₃))).length < 2 ^ 64)
    (htokens : tokensTaken (completions (accesses (es₁ ++ es₂ ++ es₃))) < 2 ^ 64) :
    let before := completions (accesses es₁)
    let made := completions (accesses (es₁ ++ es₂ ++ es₃))
    let seen := metricsDuring s₁.counters s₂.counters s₃.counters
    (seen.allowed ≤ made.countP (fun c => c.call.granted c.result.value) ∧
      before.countP (fun c => c.call.granted c.result.value) ≤ seen.allowed + Fintype.card T) ∧
    (seen.denied ≤ made.countP (fun c => c.call.refused c.result.value) ∧
      before.countP (fun c => c.call.refused c.result.value) ≤ seen.denied + Fintype.card T) ∧
    (seen.tokensGranted ≤ tokensTaken made ∧
      tokensTaken before ≤ seen.tokensGranted + Fintype.card T * config.capacity) := by
  intro before made seen
  have hrun₂ := hfirst.append hsecond
  have hrun₃ := hrun₂.append hthird
  have hrecord₁ := run_records hfirst
  have hrecord₃ := run_records hrun₃
  -- one call adds at most one to a count of calls, and a full bucket to the tokens
  have hcount : ∀ b : Bool, b.toNat ≤ 1 := by decide
  have hbefore : es₁ <+: es₁ ++ es₂ := List.prefix_append _ _
  have hmade : es₁ ++ es₂ <+: es₁ ++ es₂ ++ es₃ := List.prefix_append _ _
  have hallowed := hfirst.read_between .allowed List.prefix_rfl (hbefore.trans hmade)
    (fun c hc => (amountAt_allowed (run_records hfirst c hc)).trans_le (hcount _))
    (by rw [dueAt_allowed hrecord₃]; exact List.countP_le_length.trans_lt hcalls)
  have hdenied := hrun₂.read_between .denied hbefore hmade
    (fun c hc => (amountAt_denied (run_records hrun₂ c hc)).trans_le (hcount _))
    (by rw [dueAt_denied hrecord₃]; exact List.countP_le_length.trans_lt hcalls)
  have htaken := hrun₃.read_between .tokensGranted (hbefore.trans hmade) List.prefix_rfl
    (fun c hc => (amountAt_tokensGranted (hrecord₃ c hc)).trans_le (taken_le_capacity h hrun₃.run hc))
    (by rwa [dueAt_tokensGranted hrecord₃])
  rw [dueAt_allowed hrecord₁, dueAt_allowed hrecord₃, Nat.mul_one] at hallowed
  rw [dueAt_denied hrecord₁, dueAt_denied hrecord₃, Nat.mul_one] at hdenied
  rw [dueAt_tokensGranted hrecord₁, dueAt_tokensGranted hrecord₃] at htaken
  exact ⟨hallowed, hdenied, htaken⟩

/-- Two grants and a refusal; the first adds to its counters only after the second. -/
def liveDrill : List (TallyMove Bool Call) × List (TallyMove Bool Call) × List (TallyMove Bool Call) :=
  ([.access (.call false (.acquire 2 .zero)), .access (.advance false), .access (.advance false),
      .access (.call true (.acquireUpTo 3 .zero)), .access (.advance true), .access (.advance true),
      .bump true],
    [.bump true, .access (.call true (.acquire 1 .zero)), .access (.advance true), .access (.advance true)],
    [.bump false, .bump false, .bump true])

def liveFirst : List (TallyEvent Bool Call ℕ (Exit Answer) Counter) × Metered Bool :=
  Tallied.play (new (Bucket.perSecond 3)).program Exit.updates
    (.start (Bucket.start (Bucket.perSecond 3))) liveDrill.1

def liveSecond : List (TallyEvent Bool Call ℕ (Exit Answer) Counter) × Metered Bool :=
  Tallied.play (new (Bucket.perSecond 3)).program Exit.updates liveFirst.2 liveDrill.2.1

def liveThird : List (TallyEvent Bool Call ℕ (Exit Answer) Counter) × Metered Bool :=
  Tallied.play (new (Bucket.perSecond 3)).program Exit.updates liveSecond.2 liveDrill.2.2

/-- One of two grants is missed, and all three tokens are counted by the last load. -/
theorem metrics_in_flight_liveDrill :
    metricsDuring liveFirst.2.counters liveSecond.2.counters liveThird.2.counters = ⟨1, 0, 3⟩ ∧
      (completions (accesses liveFirst.1)).countP (fun c => c.call.granted c.result.value) ≤
        1 + Fintype.card Bool := by
  have hseen : metricsDuring liveFirst.2.counters liveSecond.2.counters liveThird.2.counters = ⟨1, 0, 3⟩ := by
    decide +kernel
  have hfirst : TallyRun .current (new (Bucket.perSecond 3)).program Exit.updates
      (.start (Bucket.start (Bucket.perSecond 3))) liveFirst.1 liveFirst.2 := Tallied.play_run _ _ _ _
  have hsecond : TallyRun .current (new (Bucket.perSecond 3)).program Exit.updates liveFirst.2
      liveSecond.1 liveSecond.2 := Tallied.play_run _ _ _ _
  have hthird : TallyRun .current (new (Bucket.perSecond 3)).program Exit.updates liveSecond.2
      liveThird.1 liveThird.2 := Tallied.play_run _ _ _ _
  have hlag := (metrics_in_flight (Bucket.perSecond_valid (by decide)) hfirst hsecond hthird
    (by decide +kernel) (by decide +kernel)).1.2
  rw [hseen] at hlag
  exact ⟨hseen, hlag⟩

end Snapshot

/-! ## Throughput -/

theorem tokensTaken_eq {es : List (Event T Call ℕ (Exit Answer))} {self : Core} {s s' : State T Call ℕ}
    (hrun : Run loads self.program s es s') : tokensTaken (completions es) = taken (writes es) := by
  induction hrun with
  | nil => rfl
  | @snoc es s e s' hrun hstep ih =>
    rw [completions_append, tokensTaken, List.map_append, List.sum_append, ← tokensTaken, ih,
      writes_append, taken_append, Nat.add_left_cancel_iff]
    -- a call that completes without a write takes nothing
    cases e with
    | commit w => rfl
    | finish c =>
      have hzero := taken_of_declines hstep.finishes
      show c.call.taken c.result.value + 0 = 0
      rw [hzero]
    | invoke | load | casFail => rfl

omit [DecidableEq T] in
/-- Without refunds and resets the word is where the clock will be when the last caller acts. -/
theorem word_le_read_ends (h : config.Valid) {t0 : Duration} {latest word' : ℕ} {ws : List (Entry T)}
    (hlinked : Linked (new config).program (start config t0) ws word')
    (hgrants : ∀ w ∈ ws, w.call.isRefund = false ∧ w.call.isReset = false)
    (ht0 : t0.asNanos ≤ latest) (hover : ∀ w ∈ ws, w.ends ≤ latest) :
    word' ≤ (new config).clock.read latest := by
  refine hlinked.invariant (fun _ word' => word' ≤ (new config).clock.read latest) ?_ ?_
  · calc start config t0 ≤ (new config).units t0 := start_le_units config t0
      _ = (new config).clock.read t0.asNanos := units_eq h t0
      _ ≤ (new config).clock.read latest := (new config).clock.read_mono ht0
  · intro pre (w : Entry T) post hsplit _ hwrite
    have hmem : w ∈ ws := by simp [hsplit]
    have hgrant := grant_of_call h hwrite (hgrants w hmem).1 (hgrants w hmem).2
    exact hgrant.covered.trans ((new config).clock.read_mono (hover w hmem))

variable [Fintype T] {es : List (TallyEvent T Call ℕ (Exit Answer) Counter)} {s : Metered T}

/-- Without refunds, resets and waits still running, the tokens counted never exceed the initial ones
and the refill since creation, at any moment and with calls in progress. -/
theorem tokens_granted_within (h : config.Valid) {t0 : Duration} {latest : ℕ}
    (hrun : TallyRun loads (new config).program Exit.updates (.start (start config t0)) es s)
    (hcalls : ∀ c ∈ calls (accesses es), c.isRefund = false ∧ c.isReset = false)
    (ht0 : t0.asNanos ≤ latest) (hover : ∀ w ∈ writes (accesses es), Entry.ends w ≤ latest) :
    (s.counters .tokensGranted : ℚ) ≤
      config.initial + config.accrued ((latest : ℚ) - t0.asNanos + 4) + resolution := by
  have hgrants : ∀ w ∈ writes (accesses es), w.call.isRefund = false ∧ w.call.isReset = false :=
    fun w hw => hcalls w.call (hrun.run.write_invoked hw)
  have hcounted : s.counters .tokensGranted ≤ taken (writes (accesses es)) := by
    have hle := hrun.counters_le .tokensGranted
    rwa [dueAt_tokensGranted (run_records hrun), tokensTaken_eq hrun.run] at hle
  have hlinked := hrun.run.linked
  have hword := word_le_read_ends h hlinked hgrants ht0 hover
  have htook := linked_add_taken_le h hlinked hgrants
  have hstart := units_le_start_add config t0
  rw [units_eq h] at hstart
  have hstartQ : ((new config).clock.read t0.asNanos : ℚ) ≤ start config t0 + (new config).cost config.initial := by
    exact_mod_cast hstart
  have hwordQ : (s.shared.word : ℚ) ≤ (new config).clock.read latest := by exact_mod_cast hword
  have hfirst : (Tallied.start (start config t0) : Metered T).shared.word = start config t0 := rfl
  rw [hfirst] at htook
  have hbound : (taken (writes (accesses es)) : ℚ) ≤ _ :=
    tokens_le_of_read h config.initial_le (a := t0.asNanos) (b := latest) (by linarith)
  have hspan : (0 : ℚ) ≤ (latest : ℚ) - t0.asNanos := by
    have : (t0.asNanos : ℚ) ≤ latest := by exact_mod_cast ht0
    linarith
  rw [max_eq_right hspan] at hbound
  have hcountedQ : (s.counters .tokensGranted : ℚ) ≤ taken (writes (accesses es)) := by exact_mod_cast hcounted
  exact hcountedQ.trans hbound

theorem tokens_granted_within_liveDrill : (liveThird.2.counters .tokensGranted : ℚ) ≤
    (Bucket.perSecond 3).initial + (Bucket.perSecond 3).accrued ((0 : ℕ) - Duration.zero.asNanos + 4) +
      resolution := by
  have hrun : TallyRun .current (new (Bucket.perSecond 3)).program Exit.updates
      (.start (start (Bucket.perSecond 3) .zero)) (liveFirst.1 ++ liveSecond.1 ++ liveThird.1) liveThird.2 :=
    ((Tallied.play_run _ _ _ _).append (Tallied.play_run _ _ _ _)).append (Tallied.play_run _ _ _ _)
  exact tokens_granted_within (Bucket.perSecond_valid (by decide)) hrun (by decide +kernel) (Nat.le_refl 0)
    (by decide +kernel)

end BetterBucket.Core

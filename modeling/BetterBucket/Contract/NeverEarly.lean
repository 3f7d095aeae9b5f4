import BetterBucket.Contract.NeverLate
import BetterBucket.Protocol.Promises

/-!
# Never early

The same run side by side with the exact bucket, bounded from the other side.  Unless the exact
bucket is full, its level is what accrued since some epoch less the tokens spent since, and the word
is at least the clock at that epoch plus the units of those tokens (`Leads`).
-/

namespace BetterBucket.Core

open CasLoop MachineWords ScaledClock TokenBucket

variable {config : BucketConfig}

/-- A property of the two buckets at the last instant of a call holds after all calls of a timely
run, if it holds at creation and every call keeps it. -/
theorem Timely.invariant {t0 t : Duration} {ops : List (Duration × Call)}
    (hops : Timely config t0 t ops) (Inv : ℕ × Level ℚ → Duration → Prop)
    (hstart : Inv (start config t0, ⟨config.initial, t0.asNanos⟩) t0)
    (hstep : ∀ s now (op : Duration × Call), Inv s now → now ≤ op.1 →
      (∀ r ∈ op.2.reading, r = op.1) → (∀ m, op.2 = .refund m → m ≤ config.capacity) →
      Inv (serve config s op) op.1) :
    ∃ now, now ≤ t ∧ Inv (sideBySide config t0 ops) now := by
  obtain ⟨hinstants, hreadings, hrefunds⟩ := hops
  unfold sideBySide
  generalize (start config t0, (⟨config.initial, t0.asNanos⟩ : Level ℚ)) = s at hstart
  induction ops generalizing s t0 with
  | nil => exact ⟨t0, by simpa using hinstants, hstart⟩
  | cons op ops ih =>
    simp only [List.map_cons, List.cons_append] at hinstants
    have hhead : t0 ≤ op.1 := (List.pairwise_cons.mp hinstants).1 _ (by simp)
    rw [List.forall_mem_cons] at hreadings hrefunds
    have hnext := hstep s t0 op hstart hhead hreadings.1 hrefunds.1
    exact ih (List.pairwise_cons.mp hinstants).2 hreadings.2 hrefunds.2 _ hnext

/-- The exact bucket is full, or it holds what accrued since an epoch, and then the word is no
earlier than the clock at that epoch and the units spent since. -/
structure Leads (config : BucketConfig) (s : ℕ × Level ℚ) (now : ℕ) : Prop where
  last_eq : s.2.last = now
  level : (ideal config).capacity ≤ s.2.tokens ∨ ∃ (epoch : ℕ) (spent : ℤ), epoch ≤ now ∧
    (ideal config).HoldsSince s.2 epoch spent ∧
    ((new config).clock.read epoch : ℤ) + spent * (new config).grain ≤ s.1

namespace Leads

variable {word word' n : ℕ} {l : Level ℚ} {now t : ℕ}

theorem start (h : config.Valid) (hs : 0 ≤ (new config).unitShift) (t0 : Duration) :
    Leads config (start config t0, ⟨config.initial, t0.asNanos⟩) t0.asNanos where
  last_eq := rfl
  level := by
    have hstart := units_le_start_add config t0
    rw [cost_exact h hs config.initial_le, units_eq h] at hstart
    refine .inr ⟨t0.asNanos, -config.initial, le_rfl, ?_, ?_⟩
    · simp [HoldsSince]
    · zify at hstart
      linarith

/-- At a later instant: the exact bucket is full, or the epoch still stands. -/
theorem later (hleads : Leads config (word, l) now) (hnow : now ≤ t) :
    (ideal config).tokensAt l t = (ideal config).capacity ∨
      ∃ (epoch : ℕ) (spent : ℤ), epoch ≤ t ∧ (ideal config).HoldsSince l epoch spent ∧
        (ideal config).tokensAt l t < (ideal config).capacity ∧
        ((new config).clock.read epoch : ℤ) + spent * (new config).grain ≤ word := by
  have hrate : 0 ≤ (ideal config).rate := by unfold ideal; positivity
  have hlast : l.last ≤ (t : ℚ) := by
    have hlast : l.last = now := hleads.last_eq
    rw [hlast]
    exact_mod_cast hnow
  rcases hleads.level with hfull | ⟨epoch, spent, hepoch, hholds, hword⟩
  · exact .inl (tokensAt_of_full (t : ℚ) hrate hfull hlast)
  · rcases (tokensAt_le_capacity (ideal config) l (t : ℚ)).eq_or_lt with hfull | hroom
    · exact .inl hfull
    · exact .inr ⟨epoch, spent, hepoch.trans hnow, hholds, hroom, hword⟩

/-- A charge moves the word by its units, and from a full bucket no earlier than from full. -/
theorem charge (hleads : Leads config (word, l) now) (hnow : now ≤ t)
    (hword : word + n * (new config).grain ≤ word')
    (hfull : (ideal config).tokensAt l t = (ideal config).capacity → 0 < n →
      (new config).clock.read t + n * (new config).grain ≤ word' + config.capacity * (new config).grain) :
    Leads config (word', (ideal config).charge l t n) t where
  last_eq := rfl
  level := by
    rcases hleads.later hnow with hcap | ⟨epoch, spent, hepoch, hholds, hroom, hbefore⟩
    · rcases Nat.eq_zero_or_pos n with rfl | hpos
      · left
        show _ ≤ (ideal config).tokensAt l t - ((0 : ℕ) : ℚ)
        rw [hcap, Nat.cast_zero, sub_zero]
      · have hlate := hfull hcap hpos
        refine .inr ⟨t, n - config.capacity, le_rfl, ?_, ?_⟩
        · have hholds := holdsSince_charge_of_full (t : ℚ) (n : ℚ) hcap
          push_cast
          exact hholds
        · zify at hlate
          linarith
    · have hcharged := hholds.charge (t : ℚ) (n : ℚ) hroom
      refine .inr ⟨epoch, spent + n, hepoch, by exact_mod_cast hcharged, ?_⟩
      zify at hword
      linarith

/-- A refund that does not fill the exact bucket moves the word back by its units at most. -/
theorem credit (hleads : Leads config (word, l) now) (hnow : now ≤ t)
    (hword : word ≤ word' + n * (new config).grain) :
    Leads config (word', (ideal config).credit l t n) t where
  last_eq := rfl
  level := by
    have hn : (0 : ℚ) ≤ n := Nat.cast_nonneg n
    by_cases hover : (ideal config).capacity ≤ (ideal config).tokensAt l t + n
    · exact .inl (credit_full _ _ hover)
    · rcases hleads.later hnow with hcap | ⟨epoch, spent, hepoch, hholds, hroom, hbefore⟩
      · exact absurd (by linarith) hover
      · have hcredited := hholds.credit (t : ℚ) (n : ℚ) (not_le.mp hover) hn
        refine .inr ⟨epoch, spent - n, hepoch, by exact_mod_cast hcredited, ?_⟩
        zify at hword
        linarith

/-- A call that takes charges a word no earlier than full. -/
theorem take (h : config.Valid) (hs : 0 ≤ (new config).unitShift)
    (hleads : Leads config (word, l) now) {t : Duration} (hnow : now ≤ t.asNanos) {c : Call}
    (hreading : c.reading = some t) (hreset : c.isReset = false) :
    Leads config ((((new config).program c).exec word).2, (ideal config).charge l t.asNanos
      (c.taken (((new config).program c).exec word).1.value : ℕ)) t.asNanos := by
  rcases exec_take h hreading hreset word with ⟨hzero, hword⟩ | ⟨n, hpos, hcap, htaken, hword, -⟩
  · rw [hword, hzero]
    exact hleads.charge hnow (by omega) fun _ hpos => absurd hpos (lt_irrefl 0)
  · have hburst := burst_lt_units h t
    rw [hword, htaken, cost_exact h hs hcap]
    apply hleads.charge hnow
    · exact Nat.add_le_add_right (le_max_left _ _) _
    · intro _ _
      have hclamp : (new config).units t - (new config).burst ≤ (new config).base word t := le_max_right _ _
      rw [burst_exact h hs] at hburst hclamp
      rw [← units_eq h]
      omega

theorem step (h : config.Valid) (hs : 0 ≤ (new config).unitShift) {s : ℕ × Level ℚ}
    (hleads : Leads config s now) {op : Duration × Call} (hnow : now ≤ op.1.asNanos)
    (hreading : ∀ r ∈ op.2.reading, r = op.1) (hrefund : ∀ m, op.2 = .refund m → m ≤ config.capacity) :
    Leads config (serve config s op) op.1.asNanos := by
  obtain ⟨word, l⟩ := s
  obtain ⟨t, c⟩ := op
  dsimp only at hnow hreading hrefund
  cases c with
  | refund m =>
    have hcap := hrefund m rfl
    have hword := refund_word config m word
    rw [min_eq_left hcap, cost_exact h hs hcap] at hword
    simp only [serve, settle, hword]
    exact hleads.credit hnow (by omega)
  | reset now =>
    -- the exact bucket is full, whatever the word is
    exact ⟨rfl, .inl le_rfl⟩
  | acquire | acquireUpTo | available | timeUntil | reserve =>
    have hnow' := hreading _ rfl
    subst hnow'
    exact hleads.take h hs hnow rfl rfl

/-- Tokens the clock covers at `t` are in the exact bucket by then, to within the resolution. -/
theorem tokens_le (h : config.Valid) (hs : 0 ≤ (new config).unitShift)
    (hleads : Leads config (word, l) now) (hnow : now ≤ t) (hcap : n ≤ config.capacity)
    (hdue : word + n * (new config).grain ≤ (new config).clock.read t) :
    (n : ℚ) ≤ (ideal config).tokensAt l t + config.accrued 4 + resolution := by
  have hslack : 0 ≤ config.accrued 4 := config.accrued_nonneg (by norm_num)
  have hresolution := resolution_nonneg
  rcases hleads.later hnow with hfull | ⟨epoch, spent, hepoch, hholds, hroom, hword⟩
  · have hcapQ : (n : ℚ) ≤ (ideal config).capacity := by
      show (n : ℚ) ≤ config.capacity
      exact_mod_cast hcap
    linarith
  · have hlevel := hholds.le_tokensAt (t : ℚ) hroom
    -- in units, what was spent and what is covered fit into the clock's gain since the epoch
    have hunits : ((n + spent : ℚ)) * 2 ^ (new config).unitShift ≤
        (new config).cost 0 + ((new config).clock.read t - (new config).clock.read epoch) := by
      rw [cost_zero, zpow_of_exact hs]
      have hdueZ : (word : ℤ) + n * (new config).grain ≤ (new config).clock.read t := by exact_mod_cast hdue
      have hsum : ((n : ℤ) + spent) * (new config).grain ≤
          (new config).clock.read t - (new config).clock.read epoch := by linarith
      have hsumQ : ((n : ℚ) + spent) * (new config).grain ≤
          (new config).clock.read t - (new config).clock.read epoch := by exact_mod_cast hsum
      simpa using hsumQ
    have htokens := tokens_le_of_read h (Nat.zero_le _) hunits
    have hspan : max 0 ((t : ℚ) - epoch) = t - epoch :=
      max_eq_right (sub_nonneg.mpr (by exact_mod_cast hepoch))
    have haccrued : config.accrued ((t : ℚ) - epoch) = (ideal config).rate * (t - epoch) := by
      unfold BucketConfig.accrued ideal
      ring
    rw [hspan, config.accrued_add, haccrued] at htokens
    push_cast at htokens
    linarith

end Leads

/-- At every later reading, past the end of the clock included, the bucket shows no more than the
exact one holds, and grants no more, to within the resolution. -/
theorem never_early (h : config.Valid)
    (hexact : 10 * config.refillAmount ≤ 43 * config.refillPeriod.asNanos) {t0 t : Duration}
    {ops : List (Duration × Call)} (hops : Timely config t0 t ops) :
    ((new config).availableIn (sideBySide config t0 ops).1 t : ℚ) ≤
        max 0 ((ideal config).tokensAt (sideBySide config t0 ops).2 t.asNanos +
          config.accrued 4 + resolution) ∧
      ∀ n, 0 < n → (new config).answer (.acquire n t) (sideBySide config t0 ops).1 = .decision .allowed →
        (n : ℚ) ≤ (ideal config).tokensAt (sideBySide config t0 ops).2 t.asNanos +
          config.accrued 4 + resolution := by
  have hs := (unitChoice h).nonneg_iff.mpr hexact
  obtain ⟨now, hnow, hleads⟩ := hops.invariant (fun s now => Leads config s now.asNanos)
    (Leads.start h hs t0) fun _ _ _ hinv hle hreading hrefund => hinv.step h hs hle hreading hrefund
  set s := sideBySide config t0 ops
  -- whatever is shown is covered at the reading
  have hcovered : ∀ n, 0 < n → n ≤ (new config).availableIn s.1 t → (n : ℚ) ≤
      (ideal config).tokensAt s.2 t.asNanos + config.accrued 4 + resolution := by
    intro n hpos hn
    have hcap : n ≤ config.capacity := hn.trans (tokensIn_le h _)
    have hdue := (waitFor_eq_zero_iff h hpos hcap).mp ((waitFor_eq_zero_iff_le h).mpr hn)
    rw [cost_exact h hs hcap, units_eq h] at hdue
    exact hleads.tokens_le h hs hnow hcap hdue
  constructor
  · rcases Nat.eq_zero_or_pos ((new config).availableIn s.1 t) with hnone | hsome
    · rw [hnone, Nat.cast_zero]
      exact le_max_left _ _
    · exact (hcovered _ hsome le_rfl).trans (le_max_right _ _)
  · intro n hpos hallowed
    exact hcovered n hpos ((waitFor_eq_zero_iff_le h).mp ((acquire_allowed_iff h n s.1 t).mp hallowed))

theorem never_early_busySecond :
    (new (Bucket.perSecond 10)).answer (.acquire 4 (.fromMillis 1725))
        (sideBySide (Bucket.perSecond 10) (.fromMillis 0) busySecond).1 = .decision .allowed ∧
      (4 : ℚ) ≤ (ideal (Bucket.perSecond 10)).tokensAt
        (sideBySide (Bucket.perSecond 10) (.fromMillis 0) busySecond).2
          (Duration.fromMillis 1725).asNanos + (Bucket.perSecond 10).accrued 4 + resolution :=
  have hallowed : (new (Bucket.perSecond 10)).answer (.acquire 4 (.fromMillis 1725))
      (sideBySide (Bucket.perSecond 10) (.fromMillis 0) busySecond).1 = .decision .allowed := by
    decide +kernel
  ⟨hallowed, (never_early (Bucket.perSecond_valid (by decide)) (by decide) busySecond_timely).2 4
    (by decide) hallowed⟩

/-! ## Waits -/

section Waits

variable {t0 t w : Duration} {ops : List (Duration × Call)} {n : ℕ}

/-- The exact bucket holds the tokens a caller was told to wait for when the wait ends, to within the
resolution, and a millisecond before it does not. -/
theorem waitFor_tracks (h : config.Valid)
    (hexact : 10 * config.refillAmount ≤ 43 * config.refillPeriod.asNanos)
    (hops : Timely config t0 t ops) (hpos : 0 < n) (hcap : n ≤ config.capacity)
    (hw : (new config).waitFor n (sideBySide config t0 ops).1 t = some w) :
    (n : ℚ) ≤ (ideal config).tokensAt (sideBySide config t0 ops).2 (t.asNanos + w.asNanos : ℕ) +
        config.accrued 4 + resolution ∧
      (w ≠ .zero → (ideal config).tokensAt (sideBySide config t0 ops).2
        (t.asNanos + w.asNanos - NANOS_PER_MILLI : ℕ) < n) := by
  have hs := (unitChoice h).nonneg_iff.mpr hexact
  obtain ⟨now, hnow, hleads, epoch, spent, htracks⟩ := hops.invariant
    (fun s now => Leads config s now.asNanos ∧ ∃ epoch spent, Tracks config s now.asNanos epoch spent)
    ⟨Leads.start h hs t0, _, _, Tracks.start h hs t0⟩
    fun _ _ _ hinv hle hreading hrefund =>
      have ⟨_, _, htracks⟩ := hinv.2
      ⟨hinv.1.step h hs hle hreading hrefund, htracks.step h hs hle hreading hrefund⟩
  set s := sideBySide config t0 ops
  obtain ⟨hrange, hhorizon, hdue⟩ := dueFor_le_of_waitFor h hpos hcap hw
  constructor
  · apply hleads.tokens_le h hs (Nat.le_add_right_of_le hnow) hcap
    rw [← cost_exact h hs hcap, Clock.le_read_iff _ (rateBounds h).pos hrange]
    exact le_min hdue hhorizon
  · intro hne
    obtain ⟨hlate, hmilli, htight⟩ := lt_dueFor_of_waitFor h hpos hcap hw hne
    obtain ⟨earlier, hearlier⟩ : ∃ earlier : Duration,
        earlier.asNanos = t.asNanos + w.asNanos - NANOS_PER_MILLI := by
      have hmax : maxValue 64 < 2 ^ 64 * NANOS_PER_SEC := by decide
      exact ⟨⟨_, by omega⟩, rfl⟩
    have huncovered : (new config).units earlier < s.1 + (new config).cost n := by
      rw [← not_le, le_units_iff h hrange]
      unfold dueFor at htight
      omega
    -- a clock short of the target has not stopped
    have hinRange : (new config).clock.InRange earlier.asNanos := by
      rw [units_eq h] at huncovered
      have hshort : (new config).clock.read earlier.asNanos < (new config).clock.limit :=
        huncovered.trans_le hrange
      have hticks : earlier.asNanos ≤ (new config).clock.horizon := by
        show earlier.asNanos ≤ maxValue 64
        omega
      refine ⟨hticks, ?_⟩
      rw [Clock.read, min_eq_left hticks, min_lt_iff, or_iff_left (lt_irrefl _)] at hshort
      exact hshort.le
    rw [← hearlier, ← not_le]
    intro hpaid
    have hle : now.asNanos ≤ earlier.asNanos := hnow.trans (by omega)
    have hcost : (new config).cost n ≤ (new config).credit s.1 earlier :=
      htracks.cost_le h hs hle hinRange hcap hpaid
    have hcostPos := cost_pos h hpos hcap
    unfold credit base at hcost
    omega

/-- A wait for tokens, and the wait of a reservation that took them, end when the exact bucket has
them, or is out of debt again: to within the resolution, and by less than a millisecond. -/
theorem waits_track_exact (h : config.Valid)
    (hexact : 10 * config.refillAmount ≤ 43 * config.refillPeriod.asNanos)
    (hops : Timely config t0 t ops) (hpos : 0 < n) (hcap : n ≤ config.capacity) :
    let s := sideBySide config t0 ops
    (∀ w, (new config).answer (.timeUntil n t) s.1 = .wait (some w) →
      (n : ℚ) ≤ (ideal config).tokensAt s.2 (t.asNanos + w.asNanos : ℕ) + config.accrued 4 + resolution ∧
        (w ≠ .zero →
          (ideal config).tokensAt s.2 (t.asNanos + w.asNanos - NANOS_PER_MILLI : ℕ) < n)) ∧
    ∀ maxWait w, (new config).answer (.reserve n maxWait t) s.1 = .wait (some w) →
      let s' := serve config s (t, .reserve n maxWait t)
      0 ≤ (ideal config).tokensAt s'.2 (t.asNanos + w.asNanos : ℕ) + config.accrued 4 + resolution ∧
        (w ≠ .zero →
          (ideal config).tokensAt s'.2 (t.asNanos + w.asNanos - NANOS_PER_MILLI : ℕ) < 0) := by
  intro s
  have hrate : 0 ≤ (ideal config).rate := by unfold ideal; positivity
  constructor
  · intro w hw
    rw [timeUntil_answer, Answer.wait.injEq] at hw
    exact waitFor_tracks h hexact hops hpos hcap hw
  · intro maxWait w hw s'
    have hwait : (new config).waitFor n s.1 t = some w := by
      rw [reserve_answer, Answer.wait.injEq] at hw
      exact (Option.filter_eq_some_iff.mp hw).1
    obtain ⟨hcovered, hshort⟩ := waitFor_tracks h hexact hops hpos hcap hwait
    have hsettled : s'.2 = (ideal config).charge s.2 t.asNanos n := by
      show (ideal config).charge s.2 t.asNanos
        (Call.taken (.reserve n maxWait t) ((new config).answer (.reserve n maxWait t) s.1) : ℕ) = _
      rw [hw, Call.taken]
    rw [hsettled]
    constructor
    · have hlater : (t.asNanos : ℚ) ≤ (t.asNanos + w.asNanos : ℕ) := by
        exact_mod_cast Nat.le_add_right _ _
      have hcharged := tokensAt_sub_le_charge (b := ideal config) (l := s.2) (t.asNanos : ℚ) (n : ℚ)
        hrate hlater (Nat.cast_nonneg n)
      linarith
    · intro hne
      -- short of the tokens asked for, the exact bucket is short of full
      have hroom : (ideal config).tokensAt s.2 (t.asNanos + w.asNanos - NANOS_PER_MILLI : ℕ) <
          (ideal config).capacity := by
        have hcapQ : (n : ℚ) ≤ (ideal config).capacity := by
          show (n : ℚ) ≤ config.capacity
          exact_mod_cast hcap
        exact (hshort hne).trans_le hcapQ
      have hcharged := tokensAt_charge_le (t.asNanos : ℚ) (n : ℚ) hroom
      have := hshort hne
      linarith

/-- Short of three tokens and a quarter, a reservation of eight waits for 325 ms. -/
theorem waits_track_exact_busySecond :
    (new (Bucket.perSecond 10)).answer (.reserve 8 .MAX (.fromMillis 1725))
        (sideBySide (Bucket.perSecond 10) (.fromMillis 0) busySecond).1 = .wait (some (.fromMillis 325)) ∧
      (ideal (Bucket.perSecond 10)).tokensAt (serve (Bucket.perSecond 10)
        (sideBySide (Bucket.perSecond 10) (.fromMillis 0) busySecond)
        (.fromMillis 1725, .reserve 8 .MAX (.fromMillis 1725))).2 (2049000000 : ℕ) < 0 := by
  have hwait : (new (Bucket.perSecond 10)).answer (.reserve 8 .MAX (.fromMillis 1725))
      (sideBySide (Bucket.perSecond 10) (.fromMillis 0) busySecond).1 =
        .wait (some (.fromMillis 325)) := by decide +kernel
  have htracks := (waits_track_exact (Bucket.perSecond_valid (by decide)) (by decide)
    busySecond_timely (by decide : 0 < 8) (by decide +kernel)).2 .MAX (.fromMillis 325) hwait
  exact ⟨hwait, htracks.2 (by decide)⟩

end Waits

end BetterBucket.Core

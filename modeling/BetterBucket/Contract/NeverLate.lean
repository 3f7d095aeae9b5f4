import BetterBucket.Arithmetic.Slack
import BetterBucket.Engine.Bucket
import BetterBucket.Foundation.TokenBucket
import BetterBucket.Protocol.Sequential

/-!
# Never late, refill never lost

The bucket run side by side with an exact one.  The word is at most the clock at some epoch plus
the units spent since, and the exact level is at most what accrued since that epoch less the tokens
spent since (`Tracks`): the epoch moves up when a call finds the bucket full.
-/

namespace BetterBucket.Core

open CasLoop MachineWords ScaledClock TokenBucket

/-- The exact bucket of a configuration, in tokens and nanoseconds. -/
def ideal (config : BucketConfig) : TokenBucket ℚ where
  capacity := config.capacity
  rate := config.refillAmount / config.refillPeriod.asNanos

/-- What a call at `now` with this answer does to the exact bucket. -/
def settle (config : BucketConfig) (l : Level ℚ) (now : Duration) (c : Call) (a : Answer) : Level ℚ :=
  match c with
  | .refund m => (ideal config).credit l now.asNanos m
  | .reset _ => (ideal config).fill now.asNanos
  | c => (ideal config).charge l now.asNanos (c.taken a)

/-- A call at its instant, made of the bucket and settled on the exact one. -/
def serve (config : BucketConfig) (s : ℕ × Level ℚ) (op : Duration × Call) : ℕ × Level ℚ :=
  let step := ((new config).program op.2).exec s.1
  (step.2, settle config s.2 op.1 op.2 step.1.value)

/-- The word of a bucket built at `t0`, and the exact bucket, after the calls. -/
def sideBySide (config : BucketConfig) (t0 : Duration) (ops : List (Duration × Call)) : ℕ × Level ℚ :=
  ops.foldl (serve config) (start config t0, ⟨config.initial, t0.asNanos⟩)

/-- Calls between `t0` and `t` at nondecreasing instants, each reading its own, and no refund of
more than the capacity. -/
structure Timely (config : BucketConfig) (t0 t : Duration) (ops : List (Duration × Call)) : Prop where
  instants : (t0 :: ops.map Prod.fst ++ [t]).Pairwise (· ≤ ·)
  readings : ∀ op ∈ ops, ∀ now ∈ op.2.reading, now = op.1
  refunds : ∀ op ∈ ops, ∀ m, op.2 = .refund m → m ≤ config.capacity

structure Tracks (config : BucketConfig) (s : ℕ × Level ℚ) (now epoch : ℕ) (spent : ℤ) : Prop where
  last_eq : s.2.last = now
  epoch_le : epoch ≤ now
  word_le : (s.1 : ℤ) ≤ (new config).clock.read epoch + spent * (new config).grain
  level_le : (ideal config).SpentSince s.2 epoch spent

namespace Tracks

variable {config : BucketConfig} {word word' n : ℕ} {l : Level ℚ} {now epoch t : ℕ} {spent : ℤ}

theorem start (h : config.Valid) (hs : 0 ≤ (new config).unitShift) (t0 : Duration) :
    Tracks config (start config t0, ⟨config.initial, t0.asNanos⟩) t0.asNanos t0.asNanos (-config.initial) where
  last_eq := rfl
  epoch_le := le_rfl
  word_le := by
    have hburst := burst_lt_units h t0
    have hle := Nat.mul_le_mul_right (new config).grain config.initial_le
    rw [burst_exact h hs] at hburst
    rw [Core.start, min_eq_left config.initial_le, cost_exact h hs config.initial_le, ← units_eq h]
    push_cast [Nat.cast_sub (by omega : config.initial * (new config).grain ≤ (new config).units t0)]
    linarith
  level_le := .of_le (by simp) rfl

/-- A charge on a word that is not full is spent since the old epoch. -/
theorem charge (htracks : Tracks config (word, l) now epoch spent) (hnow : now ≤ t)
    (hword : word' ≤ word + n * (new config).grain) :
    Tracks config (word', (ideal config).charge l t n) t epoch (spent + n) where
  last_eq := rfl
  epoch_le := htracks.epoch_le.trans hnow
  word_le := by
    have hbefore := htracks.word_le
    have hwordZ : (word' : ℤ) ≤ word + n * (new config).grain := by exact_mod_cast hword
    linarith
  level_le := by
    have hlevel := htracks.level_le.charge (t : ℚ) (n : ℚ)
    exact_mod_cast hlevel

theorem credit (htracks : Tracks config (word, l) now epoch spent) (hnow : now ≤ t)
    (hword : word' + n * (new config).grain ≤ word) :
    Tracks config (word', (ideal config).credit l t n) t epoch (spent - n) where
  last_eq := rfl
  epoch_le := htracks.epoch_le.trans hnow
  word_le := by
    have hbefore := htracks.word_le
    have hwordZ : (word' : ℤ) + n * (new config).grain ≤ word := by exact_mod_cast hword
    linarith
  level_le := by
    have hlevel := htracks.level_le.credit (t : ℚ) (n : ℚ)
    exact_mod_cast hlevel

/-! A word no later than full starts a new epoch, whatever the exact bucket went through. -/

theorem charge_full (hword : word' + config.capacity * (new config).grain ≤
      (new config).clock.read t + n * (new config).grain) :
    Tracks config (word', (ideal config).charge l t n) t t (n - config.capacity) where
  last_eq := rfl
  epoch_le := le_rfl
  word_le := by
    zify at hword
    linarith
  level_le := by
    push_cast
    exact spentSince_charge (ideal config) l t n

theorem credit_full (hword : word' + config.capacity * (new config).grain ≤ (new config).clock.read t) :
    Tracks config (word', (ideal config).credit l t n) t t (-config.capacity) where
  last_eq := rfl
  epoch_le := le_rfl
  word_le := by
    zify at hword
    linarith
  level_le := by
    push_cast
    exact spentSince_credit (ideal config) l t n

theorem fill (hword : word' + config.capacity * (new config).grain ≤ (new config).clock.read t) :
    Tracks config (word', (ideal config).fill t) t t (-config.capacity) where
  last_eq := rfl
  epoch_le := le_rfl
  word_le := by
    zify at hword
    linarith
  level_le := by
    push_cast
    exact spentSince_fill (ideal config) t

/-- A call that takes: from the old epoch, or from a new one if it found the bucket full. -/
theorem take (h : config.Valid) (hs : 0 ≤ (new config).unitShift)
    (htracks : Tracks config (word, l) now epoch spent) {t : Duration} (hnow : now ≤ t.asNanos)
    {c : Call} (hreading : c.reading = some t) (hreset : c.isReset = false) :
    ∃ epoch' spent', Tracks config ((((new config).program c).exec word).2, (ideal config).charge l
      t.asNanos (c.taken (((new config).program c).exec word).1.value : ℕ)) t.asNanos epoch' spent' := by
  rcases exec_take h hreading hreset word with ⟨hzero, hword⟩ | ⟨n, -, hcap, htaken, hword, -⟩
  · rw [hword]
    exact ⟨_, _, htracks.charge hnow (by omega)⟩
  · have hburst := burst_lt_units h t
    rw [burst_exact h hs, units_eq h] at hburst
    rw [hword, htaken, cost_exact h hs hcap, base, units_eq h, burst_exact h hs]
    by_cases hfull : word ≤ (new config).clock.read t.asNanos - config.capacity * (new config).grain
    · rw [max_eq_right hfull]
      exact ⟨_, _, charge_full (by omega)⟩
    · rw [max_eq_left (not_le.mp hfull).le]
      exact ⟨_, _, htracks.charge hnow le_rfl⟩

/-- Every call keeps the bucket tracking the exact one. -/
theorem step (h : config.Valid) (hs : 0 ≤ (new config).unitShift) {s : ℕ × Level ℚ}
    (htracks : Tracks config s now epoch spent) {op : Duration × Call} (hnow : now ≤ op.1.asNanos)
    (hreading : ∀ t ∈ op.2.reading, t = op.1) (hrefund : ∀ m, op.2 = .refund m → m ≤ config.capacity) :
    ∃ epoch' spent', Tracks config (serve config s op) op.1.asNanos epoch' spent' := by
  obtain ⟨word, l⟩ := s
  obtain ⟨t, c⟩ := op
  have hburst := burst_lt_units h t
  rw [burst_exact h hs] at hburst
  dsimp only at hnow hreading hrefund
  cases c with
  | refund m =>
    have hcap := hrefund m rfl
    have hprice := Nat.mul_le_mul_right (new config).grain hcap
    have hword := refund_word config m word
    rw [min_eq_left hcap, cost_exact h hs hcap] at hword
    simp only [serve, settle, hword]
    by_cases hroom : m * (new config).grain ≤ word
    · exact ⟨_, _, htracks.credit hnow (by omega)⟩
    · -- the word stops at zero, before any instant of the clock
      exact ⟨_, _, credit_full (by rw [← units_eq h]; omega)⟩
  | reset now =>
    obtain rfl : now = t := hreading now rfl
    have hword : (new config).units now - (new config).burst + config.capacity * (new config).grain ≤
        (new config).clock.read now.asNanos := by
      rw [← units_eq h, burst_exact h hs]
      omega
    exact ⟨_, _, fill hword⟩
  | acquire | acquireUpTo | available | timeUntil | reserve =>
    have hnow' := hreading _ rfl
    subst hnow'
    exact htracks.take h hs hnow rfl rfl

theorem run (h : config.Valid) (hs : 0 ≤ (new config).unitShift) {t : Duration} {s : ℕ × Level ℚ}
    (htracks : Tracks config s now epoch spent) {ops : List (Duration × Call)}
    (hnow : ∀ op ∈ ops, now ≤ op.1.asNanos) (hend : now ≤ t.asNanos)
    (hinstants : (ops.map Prod.fst ++ [t]).Pairwise (· ≤ ·))
    (hreadings : ∀ op ∈ ops, ∀ now ∈ op.2.reading, now = op.1)
    (hrefunds : ∀ op ∈ ops, ∀ m, op.2 = .refund m → m ≤ config.capacity) :
    ∃ now' epoch' spent', now' ≤ t.asNanos ∧
      Tracks config (ops.foldl (serve config) s) now' epoch' spent' := by
  induction ops generalizing s now epoch spent with
  | nil => exact ⟨_, _, _, hend, htracks⟩
  | cons op ops ih =>
    simp only [List.map_cons, List.cons_append, List.pairwise_cons, List.mem_append, List.mem_map,
      List.mem_singleton] at hinstants
    obtain ⟨hfirst, hrest⟩ := hinstants
    simp only [List.forall_mem_cons] at hnow hreadings hrefunds
    obtain ⟨epoch', spent', hnext⟩ := htracks.step h hs hnow.1 hreadings.1 hrefunds.1
    exact ih hnext (fun op' hop' => hfirst _ (.inl ⟨op', hop', rfl⟩)) (hfirst _ (.inr rfl)) hrest
      hreadings.2 hrefunds.2

/-- What the exact bucket holds at `t`, the bucket can pay. -/
theorem cost_le (h : config.Valid) (hs : 0 ≤ (new config).unitShift) {t : Duration}
    (htracks : Tracks config (word, l) now epoch spent) (hnow : now ≤ t.asNanos)
    (hrange : (new config).clock.InRange t.asNanos) (hcap : n ≤ config.capacity)
    (hn : (n : ℚ) ≤ (ideal config).tokensAt l t.asNanos) :
    (new config).cost n ≤ (new config).credit word t := by
  have hepoch := htracks.epoch_le.trans hnow
  have hticks : (0 : ℚ) ≤ ((t.asNanos - epoch : ℕ) : ℚ) := Nat.cast_nonneg _
  have hlevel := hn.trans (htracks.level_le.tokensAt_le (t.asNanos : ℚ))
  have hgain := (new config).clock.read_add_scaled_le hrange hepoch
  -- in units, what accrued since the epoch is below what the clock gained and one more
  have hpaid : ((n + spent) * (new config).grain : ℚ) <
      scaled 64 (new config).rate (t.asNanos - epoch) + 1 := by
    have hgrain : (0 : ℚ) < (new config).grain := by exact_mod_cast grain_pos (new config)
    have hflow : flow config = (ideal config).rate * (new config).grain := by
      rw [flow, ideal, zpow_of_exact hs]
      ring
    calc ((n + spent) * (new config).grain : ℚ)
        ≤ (ideal config).rate * (t.asNanos - epoch) * (new config).grain := by gcongr; linarith
      _ = flow config * ((t.asNanos - epoch : ℕ) : ℚ) := by rw [hflow, Nat.cast_sub hepoch]; ring
      _ ≤ speed 64 (new config).rate * ((t.asNanos - epoch : ℕ) : ℚ) :=
          mul_le_mul_of_nonneg_right (flow_le_speed h) hticks
      _ < scaled 64 (new config).rate (t.asNanos - epoch) + 1 := by
          rw [mul_comm]
          exact mul_speed_lt_scaled_add_one _ _ _
  have hpaidZ : (n + spent) * (new config).grain <
      scaled 64 (new config).rate (t.asNanos - epoch) + 1 := by exact_mod_cast hpaid
  have hword := htracks.word_le
  have hprice := Nat.mul_le_mul_right (new config).grain hcap
  have hburst := burst_lt_units h t
  rw [burst_exact h hs] at hburst
  rw [cost_exact h hs hcap, Core.credit, base, burst_exact h hs]
  have hdue : word + n * (new config).grain ≤ (new config).units t := by
    rw [units_eq h]
    zify at hgain ⊢
    change _ + (scaled 64 (new config).rate (t.asNanos - epoch) : ℤ) ≤ _ at hgain
    linarith
  omega

end Tracks

/-- At every later reading the bucket shows at least the whole tokens the exact one holds, and
grants whatever it holds. -/
theorem never_late {config : BucketConfig} (h : config.Valid)
    (hexact : 10 * config.refillAmount ≤ 43 * config.refillPeriod.asNanos) {t0 t : Duration}
    {ops : List (Duration × Call)} (hops : Timely config t0 t ops)
    (hrange : (new config).clock.InRange t.asNanos) :
    ⌊(ideal config).tokensAt (sideBySide config t0 ops).2 t.asNanos⌋ ≤
        ((new config).availableIn (sideBySide config t0 ops).1 t : ℤ) ∧
      ∀ n ≤ config.capacity, (n : ℚ) ≤ (ideal config).tokensAt (sideBySide config t0 ops).2 t.asNanos →
        (((new config).program (.acquire n t)).exec (sideBySide config t0 ops).1).1.value =
          .decision .allowed := by
  have hs := (unitChoice h).nonneg_iff.mpr hexact
  have hinstants := hops.instants
  simp only [List.cons_append, List.pairwise_cons, List.mem_append, List.mem_map,
    List.mem_singleton] at hinstants
  obtain ⟨now, epoch, spent, hnow, htracks⟩ := (Tracks.start h hs t0).run h hs
    (fun op hop => hinstants.1 _ (.inl ⟨op, hop, rfl⟩)) (hinstants.1 _ (.inr rfl)) hinstants.2
    hops.readings hops.refunds
  have hpays := fun n hcap hn => htracks.cost_le (n := n) h hs hnow hrange hcap hn
  change ∀ n, n ≤ config.capacity →
    (n : ℚ) ≤ (ideal config).tokensAt (sideBySide config t0 ops).2 t.asNanos →
      (new config).cost n ≤ (new config).credit (sideBySide config t0 ops).1 t at hpays
  constructor
  · -- the whole tokens of the ideal bucket are a request it can pay
    rcases le_or_gt ⌊(ideal config).tokensAt (sideBySide config t0 ops).2 t.asNanos⌋ 0 with hnone | hsome
    · exact hnone.trans (Int.natCast_nonneg _)
    · obtain ⟨n, hn⟩ := Int.eq_ofNat_of_zero_le hsome.le
      have hle : (n : ℚ) ≤ (ideal config).tokensAt (sideBySide config t0 ops).2 t.asNanos := by
        have := Int.floor_le ((ideal config).tokensAt (sideBySide config t0 ops).2 t.asNanos)
        rw [hn] at this
        exact_mod_cast this
      have hcap : n ≤ config.capacity := by
        have hfull : (n : ℚ) ≤ config.capacity := hle.trans (tokensAt_le_capacity _ _ _)
        exact_mod_cast hfull
      rw [hn, availableIn_eq]
      exact_mod_cast (cost_le_iff h hcap _).mp (hpays n hcap hle)
  · intro n hcap hn
    rcases Nat.eq_zero_or_pos n with rfl | hpos
    · rfl
    · rw [acquire_exec h hpos hcap (hpays n hcap hn)]

/-- Every kind of call on ten tokens at ten a second, the last a reservation that leaves a debt of
three. -/
def busySecond : List (Duration × Call) :=
  [(.fromMillis 0, .acquire 7 (.fromMillis 0)), (.fromMillis 50, .acquire 4 (.fromMillis 50)),
    (.fromMillis 250, .acquireUpTo 9 (.fromMillis 250)),
    (.fromMillis 250, .timeUntil 10 (.fromMillis 250)),
    (.fromMillis 300, .reserve 10 .MAX (.fromMillis 300)), (.fromMillis 330, .refund 8),
    (.fromMillis 330, .available (.fromMillis 330)), (.fromMillis 900, .reset (.fromMillis 900)),
    (.fromMillis 950, .acquire 10 (.fromMillis 950)),
    (.fromMillis 950, .reserve 3 .MAX (.fromMillis 950))]

theorem busySecond_timely :
    Timely (Bucket.perSecond 10) (.fromMillis 0) (.fromMillis 1725) busySecond where
  instants := by decide
  readings := by decide
  refunds := by
    have hcap : (Bucket.perSecond 10).capacity = 10 := rfl
    simp [busySecond, hcap]

theorem never_late_busySecond :
    ((sideBySide (Bucket.perSecond 10) (.fromMillis 0) busySecond).2.tokens = -3) ∧
      4 ≤ ((new (Bucket.perSecond 10)).availableIn
        (sideBySide (Bucket.perSecond 10) (.fromMillis 0) busySecond).1 (.fromMillis 1725) : ℤ) ∧
      (((new (Bucket.perSecond 10)).program (.acquire 4 (.fromMillis 1725))).exec
        (sideBySide (Bucket.perSecond 10) (.fromMillis 0) busySecond).1).1.value = .decision .allowed := by
  have hlate := never_late ((BucketConfig.valid_iff _).mpr (by decide)) (by decide) busySecond_timely
    ⟨by decide +kernel, by decide +kernel⟩
  have hfloor : ⌊(ideal (Bucket.perSecond 10)).tokensAt
      (sideBySide (Bucket.perSecond 10) (.fromMillis 0) busySecond).2
        (Duration.fromMillis 1725).asNanos⌋ = 4 := by decide +kernel
  rw [hfloor] at hlate
  exact ⟨by decide +kernel, hlate.1, hlate.2 4 (by decide) (by decide +kernel)⟩

end BetterBucket.Core

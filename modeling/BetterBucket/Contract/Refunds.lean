import BetterBucket.Protocol.Decisions
import BetterBucket.Contract.FrozenReading

/-!
# Refunding a batch

Tokens taken at one reading, some of them ahead of their accrual, and given back in any split.
Where a unit is at most one token the word keeps exact account of both, but for a single refund of
more than the capacity: what is beyond the capacity is not given back.
-/

namespace BetterBucket.Core

open CasLoop MachineWords ScaledClock

/-- A call that takes tokens at `t`, at once or ahead of their accrual. -/
def TakesAt (t : Duration) (c : Call) : Prop :=
  ∃ n, c = .acquire n t ∨ c = .acquireUpTo n t ∨ ∃ maxWait, c = .reserve n maxWait t

/-- Two words no observer can tell apart from `t` on. -/
def SameFrom (core : Core) (t : Duration) (word word' : ℕ) : Prop :=
  ∀ (n : ℕ) (s : Duration), t ≤ s →
    core.answer (.available s) word' = core.answer (.available s) word ∧
      core.answer (.timeUntil n s) word' = core.answer (.timeUntil n s) word

/-- Tokens cut off from refunds of more than the capacity. -/
def lost (capacity : ℕ) (ms : List ℕ) : ℕ := (ms.map fun m => m - capacity).sum

/-- Every refund is at most the capacity, or the clock steps over all of the range in which the lost
tokens could show. -/
def RefundsReach (config : BucketConfig) (word : ℕ) (t : Duration) (ms : List ℕ) : Prop :=
  (∀ m ∈ ms, m ≤ config.capacity) ∨
    ∀ s : Duration, t ≤ s →
      (new config).units s < (new config).base word t + (new config).cost 1 ∨
      (new config).base word t + (config.capacity + lost config.capacity ms) * (new config).cost 1 ≤
        (new config).units s

variable {config : BucketConfig}

/-! ## The word after the batch -/

section Words

theorem base_of_le (self : Core) {word : ℕ} {t s : Duration} (hst : self.units t ≤ self.units s) :
    self.base (self.base word t) s = self.base word s := by
  unfold base
  omega

theorem base_add (self : Core) (word : ℕ) (t : Duration) (units : ℕ) :
    self.base (self.base word t + units) t = self.base word t + units := by
  unfold base
  omega

theorem takes_word (h : config.Valid) (hs : 0 ≤ (new config).unitShift) {t : Duration}
    {takes : List Call} (htakes : ∀ c ∈ takes, TakesAt t c) (word : ℕ) :
    (execAll (new config).program word takes).2 = word ∧
        granted (execAll (new config).program word takes).1 = 0 ∨
      (execAll (new config).program word takes).2 = (new config).base word t +
        granted (execAll (new config).program word takes).1 * (new config).grain := by
  induction takes generalizing word with
  | nil => exact .inl ⟨rfl, rfl⟩
  | cons c takes ih =>
    have hrest := fun word => ih (fun c' hc' => htakes c' (List.mem_cons_of_mem _ hc')) word
    obtain ⟨hreading, hreset⟩ : c.reading = some t ∧ c.isReset = false := by
      obtain ⟨n, rfl | rfl | ⟨maxWait, rfl⟩⟩ := htakes c List.mem_cons_self <;> exact ⟨rfl, rfl⟩
    simp only [execAll, granted, List.map_cons, List.sum_cons] at hrest ⊢
    rcases exec_take h hreading hreset word with
      ⟨htaken, hword⟩ | ⟨n, -, hcap, htaken, hword, -⟩
    · rw [htaken, hword, Nat.zero_add]
      exact hrest word
    · -- from the first take on the word is past the clamp
      right
      rw [cost_exact h hs hcap] at hword
      rw [htaken, hword, Nat.add_mul, ← Nat.add_assoc]
      rcases hrest ((new config).base word t + n * (new config).grain) with
        ⟨hsame, hnone⟩ | hmore
      · rw [hsame, hnone, Nat.zero_mul, Nat.add_zero]
      · rw [hmore, base_add]

theorem refunds_word (h : config.Valid) (hs : 0 ≤ (new config).unitShift) (ms : List ℕ) (word : ℕ) :
    (execAll (new config).program word (ms.map .refund)).2 =
      word - (ms.map fun m => min m config.capacity).sum * (new config).grain := by
  induction ms generalizing word with
  | nil => simp [execAll]
  | cons m ms ih =>
    simp only [List.map_cons, execAll, List.sum_cons]
    rw [ih, refund_word, cost_exact h hs (min_le_right _ _), Nat.sub_sub, ← Nat.add_mul]

theorem sum_min_add_lost (capacity : ℕ) (ms : List ℕ) :
    (ms.map fun m => min m capacity).sum + lost capacity ms = ms.sum := by
  induction ms with
  | nil => rfl
  | cons m ms ih =>
    simp only [lost, List.map_cons, List.sum_cons] at ih ⊢
    omega

theorem lost_eq_zero_iff (capacity : ℕ) (ms : List ℕ) :
    lost capacity ms = 0 ↔ ∀ m ∈ ms, m ≤ capacity := by
  induction ms with
  | nil => simp [lost]
  | cons m ms ih =>
    simp only [lost, List.map_cons, List.sum_cons, List.forall_mem_cons] at ih ⊢
    rw [← ih]
    omega

/-- Once all is given back, the word charges what it charged before and what was lost. -/
theorem base_of_refunds (h : config.Valid) (hs : 0 ≤ (new config).unitShift) {word : ℕ}
    {t : Duration} {takes : List Call} (htakes : ∀ c ∈ takes, TakesAt t c) {ms : List ℕ}
    (hsum : ms.sum = granted (execAll (new config).program word takes).1) {s : Duration}
    (hts : t ≤ s) :
    (new config).base (execAll (new config).program
        (execAll (new config).program word takes).2 (ms.map .refund)).2 s =
      (new config).base
        ((new config).base word t + lost config.capacity ms * (new config).grain) s := by
  have hsplit := sum_min_add_lost config.capacity ms
  rw [refunds_word h hs]
  rcases takes_word h hs htakes word with ⟨hsame, hnone⟩ | hword
  · have hgiven : (ms.map fun m => min m config.capacity).sum = 0 := by omega
    have hlost : lost config.capacity ms = 0 := by omega
    rw [hsame, hgiven, hlost, Nat.zero_mul, Nat.sub_zero, Nat.add_zero,
      base_of_le _ (units_mono h hts)]
  · rw [hword, ← hsum, ← hsplit, Nat.add_mul, ← Nat.add_assoc, Nat.add_right_comm, Nat.add_sub_cancel]

end Words

/-! ## What shows of a later word -/

section Observers

variable {word : ℕ} {t s : Duration}

/-- Whole tokens between the word and the clock, up to the capacity. -/
theorem availableIn_exact (h : config.Valid) (hs : 0 ≤ (new config).unitShift) (word : ℕ)
    (s : Duration) : (new config).availableIn word s =
      min (((new config).units s - word) / (new config).grain) config.capacity := by
  have hgrain := grain_pos (new config)
  have hburst := burst_lt_units h s
  have hcredit : (new config).credit word s =
      min ((new config).units s - word) (config.capacity * (new config).grain) := by
    rw [← burst_exact h hs]
    unfold credit base
    omega
  rw [availableIn_eq, tokensIn_exact h hs, hcredit]
  rcases le_total ((new config).units s - word) (config.capacity * (new config).grain) with hle | hge
  · rw [min_eq_left hle]
  · rw [min_eq_right hge, Nat.mul_div_cancel _ hgrain, min_self, min_eq_right]
    exact (Nat.le_div_iff_mul_le hgrain).mpr hge

/-- Two targets that the clock reaches together are waited for alike. -/
theorem waitUntil_congr (h : config.Valid) {a b : ℕ} (hab : a ≤ b)
    (hlate : (new config).units s < a)
    (hskip : ∀ s' : Duration, s ≤ s' → a ≤ (new config).units s' → b ≤ (new config).units s') :
    (if a ≤ maxValue 64 then (new config).waitUntil a s else none) =
      if b ≤ maxValue 64 then (new config).waitUntil b s else none := by
  have hmono := (new config).clock.due_mono (rateBounds h).pos hab
  by_cases ha : a ≤ maxValue 64
  case neg => rw [if_neg ha, if_neg (by omega)]
  rw [if_pos ha]
  by_cases hdue : (new config).clock.due a ≤ maxValue 64
  · -- at the instant the first is due the second is as well
    obtain ⟨s', hs', hreached⟩ := exists_reading_due h ha hdue
    have hnow := mt (le_units_iff h ha s).mpr (not_le.mpr hlate)
    have hss' : s ≤ s' := by
      show s.asNanos ≤ s'.asNanos
      omega
    have hb := hskip s' hss' hreached
    have hbmax := hb.trans (units_le h s')
    have hdueB := (le_units_iff h hbmax s').mp hb
    have heq : (new config).clock.due a = (new config).clock.due b := by omega
    rw [if_pos hbmax, waitUntil, waitUntil, dueNanos_eq, dueNanos_eq, heq]
  · -- neither is due while there are readings
    have hnever : ∀ target, maxValue 64 < (new config).clock.due target →
        (new config).waitUntil target s = none :=
      fun target => ((new config).waitUntil_eq_none_iff target s).mpr
    rw [hnever a (by omega), hnever b (by omega), ite_self]

/-- The clock never shows a reading that tells the word from one `k` tokens later. -/
def Skips (config : BucketConfig) (word k : ℕ) (t : Duration) : Prop :=
  ∀ s : Duration, t ≤ s → (new config).units s < word + (new config).grain ∨
    word + (config.capacity + k) * (new config).grain ≤ (new config).units s

theorem waitFor_of_skips (h : config.Valid) (hs : 0 ≤ (new config).unitShift) {k : ℕ}
    (hskips : Skips config word k t) (hts : t ≤ s) (n : ℕ) :
    (new config).waitFor n (word + k * (new config).grain) s = (new config).waitFor n word s := by
  have hgrain := grain_pos (new config)
  by_cases hzero : n = 0
  · rw [hzero, waitFor_zero, waitFor_zero]
  have hpos : 0 < n := Nat.pos_of_ne_zero hzero
  by_cases hcap : n ≤ config.capacity
  case neg => rw [waitFor_of_lt (not_le.mp hcap), waitFor_of_lt (not_le.mp hcap)]
  have hcost := cost_exact h hs hcap
  have hunit : (new config).grain ≤ n * (new config).grain := Nat.le_mul_of_pos_left _ hpos
  have hrange : n * (new config).grain + k * (new config).grain ≤
      (config.capacity + k) * (new config).grain := by
    rw [← Nat.add_mul]
    exact Nat.mul_le_mul_right _ (by omega)
  -- whoever is past the first of two words is past the second
  have hboth : ∀ s' : Duration, t ≤ s' → word + (new config).cost n ≤ (new config).units s' →
      word + k * (new config).grain + (new config).cost n ≤ (new config).units s' := by
    intro s' hts' hreached
    have hskip := hskips s' hts'
    omega
  by_cases hdue : word + (new config).cost n ≤ (new config).units s
  · rw [waitFor_of_due h hcap hdue, waitFor_of_due h hcap (hboth s hts hdue)]
  · have hlate := not_le.mp hdue
    rw [waitFor_of_late h hpos hcap hlate, waitFor_of_late h hpos hcap (by omega)]
    exact (waitUntil_congr h (by omega) hlate fun s' hss' =>
      hboth s' (Nat.le_trans hts hss')).symm

theorem availableIn_of_skips (h : config.Valid) (hs : 0 ≤ (new config).unitShift) {k : ℕ}
    (hskips : Skips config word k t) (hts : t ≤ s) :
    (new config).availableIn (word + k * (new config).grain) s =
      (new config).availableIn word s := by
  have hgrain := grain_pos (new config)
  rw [availableIn_exact h hs, availableIn_exact h hs, ← Nat.sub_sub, Nat.mul_comm k,
    Nat.sub_mul_div]
  rcases hskips s hts with hshort | hfull
  · have hnone : ((new config).units s - word) / (new config).grain = 0 :=
      Nat.div_eq_of_lt (by omega)
    rw [hnone, Nat.zero_sub]
  · have hmany : config.capacity + k ≤ ((new config).units s - word) / (new config).grain :=
      (Nat.le_div_iff_mul_le hgrain).mpr (by omega)
    omega

/-- A reading in between shows fewer tokens. -/
theorem availableIn_lt (h : config.Valid) (hs : 0 ≤ (new config).unitShift) {k : ℕ} (hk : 0 < k)
    (hlow : word + (new config).grain ≤ (new config).units s)
    (hhigh : (new config).units s < word + (config.capacity + k) * (new config).grain) :
    (new config).availableIn (word + k * (new config).grain) s <
      (new config).availableIn word s := by
  have hgrain := grain_pos (new config)
  have hcap := (config.valid_iff.mp h).1
  have hone : 1 ≤ ((new config).units s - word) / (new config).grain :=
    (Nat.le_div_iff_mul_le hgrain).mpr (by omega)
  have hfew : ((new config).units s - word) / (new config).grain < config.capacity + k :=
    (Nat.div_lt_iff_lt_mul hgrain).mpr (by omega)
  rw [availableIn_exact h hs, availableIn_exact h hs, ← Nat.sub_sub, Nat.mul_comm k,
    Nat.sub_mul_div]
  omega

theorem sameFrom_iff (h : config.Valid) {word' : ℕ} : SameFrom (new config) t word word' ↔
    ∀ (n : ℕ) (s : Duration), t ≤ s →
      (new config).availableIn word' s = (new config).availableIn word s ∧
        (new config).waitFor n word' s = (new config).waitFor n word s := by
  have havailable : ∀ (w : ℕ) (s : Duration),
      (new config).answer (.available s) w = .count ((new config).availableIn w s) :=
    fun w s => by rw [answer, available_exec h]
  simp only [SameFrom, timeUntil_answer, havailable, Answer.wait.injEq, Answer.count.injEq]

/-- A word and the same word `k` tokens later look the same just when `k` is nothing or the clock
skips the readings that tell. -/
theorem sameFrom_add_iff (h : config.Valid) (hs : 0 ≤ (new config).unitShift) (k : ℕ) :
    SameFrom (new config) t word (word + k * (new config).grain) ↔ k = 0 ∨ Skips config word k t := by
  rw [sameFrom_iff h]
  constructor
  · intro hsame
    by_contra hnot
    simp only [not_or, Skips, not_forall, not_lt, not_le] at hnot
    obtain ⟨hk, s, hts, hlow, hhigh⟩ := hnot
    have hless := availableIn_lt h hs (Nat.pos_of_ne_zero hk) hlow hhigh
    exact hless.ne (hsame 0 s hts).1
  · rintro (rfl | hskips) n s hts
    · rw [Nat.zero_mul, Nat.add_zero]
      exact ⟨rfl, rfl⟩
    · exact ⟨availableIn_of_skips h hs hskips hts, waitFor_of_skips h hs hskips hts n⟩

theorem sameFrom_congr (h : config.Valid) {a a' b b' : ℕ}
    (ha : ∀ s, t ≤ s → (new config).base a s = (new config).base a' s)
    (hb : ∀ s, t ≤ s → (new config).base b s = (new config).base b' s) :
    SameFrom (new config) t a b ↔ SameFrom (new config) t a' b' := by
  rw [sameFrom_iff h, sameFrom_iff h]
  refine forall₂_congr fun n s => forall_congr' fun hts => ?_
  simp only [availableIn_eq, credit, waitFor, ha s hts, hb s hts]

end Observers

/-- Giving back all of a batch restores what every observer sees from then on, exactly when no
refund is cut off, or the clock skips all that the tokens cut off could show in. -/
theorem refunds_restore_iff (h : config.Valid)
    (hrate : 10 * config.refillAmount ≤ 43 * config.refillPeriod.asNanos) (word : ℕ) (t : Duration)
    {takes : List Call} (htakes : ∀ c ∈ takes, TakesAt t c) {ms : List ℕ}
    (hsum : ms.sum = granted (execAll (new config).program word takes).1) :
    SameFrom (new config) t word (execAll (new config).program
        (execAll (new config).program word takes).2 (ms.map .refund)).2 ↔
      RefundsReach config word t ms := by
  have hs := (unitChoice h).nonneg_iff.mpr hrate
  have hone : (new config).cost 1 = (new config).grain := by
    rw [cost_exact h hs (config.valid_iff.mp h).1, Nat.one_mul]
  have hbase : ∀ s, t ≤ s → (new config).base word s = (new config).base ((new config).base word t) s :=
    fun s hts => (base_of_le _ (units_mono h hts)).symm
  rw [sameFrom_congr h hbase (fun s hts => base_of_refunds h hs htakes hsum hts),
    sameFrom_add_iff h hs, lost_eq_zero_iff, RefundsReach, hone]
  rfl

/-- Three seconds' worth taken at once, given back in pieces of at most the capacity. -/
theorem refunds_restore_iff_inPieces :
    SameFrom (new (Bucket.perSecond 2)) .zero (start (Bucket.perSecond 2) .zero)
      (execAll (new (Bucket.perSecond 2)).program
        (execAll (new (Bucket.perSecond 2)).program (start (Bucket.perSecond 2) .zero)
          [.acquire 2 .zero, .reserve 2 .MAX .zero, .reserve 2 .MAX .zero]).2
        ([2, 1, 2, 1].map .refund)).2 :=
  (refunds_restore_iff (Bucket.perSecond_valid (by decide)) (by decide +kernel) _ _
    (by simp [TakesAt]) (by decide +kernel)).mpr (.inl (by decide))

/-- One refund of two tokens, on a bucket of one: a token is lost. -/
theorem wholeRefund_loses :
    (Bucket.perSecond 1).Valid ∧
      10 * (Bucket.perSecond 1).refillAmount ≤ 43 * (Bucket.perSecond 1).refillPeriod.asNanos ∧
      (∀ c ∈ [Call.acquire 1 .zero, .reserve 1 .MAX .zero], TakesAt .zero c) ∧
      granted (execAll (new (Bucket.perSecond 1)).program (start (Bucket.perSecond 1) .zero)
        [.acquire 1 .zero, .reserve 1 .MAX .zero]).1 = [2].sum ∧
      ¬ SameFrom (new (Bucket.perSecond 1)) .zero (start (Bucket.perSecond 1) .zero)
        (execAll (new (Bucket.perSecond 1)).program
          (execAll (new (Bucket.perSecond 1)).program (start (Bucket.perSecond 1) .zero)
            [.acquire 1 .zero, .reserve 1 .MAX .zero]).2 ([2].map .refund)).2 := by
  refine ⟨Bucket.perSecond_valid (by decide), by decide +kernel, by simp [TakesAt],
    by decide +kernel, fun hsame => ?_⟩
  exact absurd (hsame 0 .zero (by decide)).1 (by decide +kernel)

end BetterBucket.Core

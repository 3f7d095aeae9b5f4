import BetterBucket.Engine.Bucket
import BetterBucket.Protocol.Decisions

/-!
# One request or several

Requests made one after the other at one reading, against a single request for their sum.
-/

namespace BetterBucket.Core

open CasLoop MachineWords

variable {config : BucketConfig}

/-- Every call of a batch was allowed. -/
def AllAllowed (results : List (Call × Exit Answer)) : Prop :=
  ∀ r ∈ results, r.2.value = .decision .allowed

instance (results : List (Call × Exit Answer)) : Decidable (AllAllowed results) :=
  inferInstanceAs (Decidable (∀ r ∈ results, _))

/-- The requests one after the other at `t`. -/
def oneByOne (self : Core) (t : Duration) (word : ℕ) (ns : List ℕ) : List (Call × Exit Answer) × ℕ :=
  execAll self.program word (ns.map fun n => .acquire n t)

section OneReading

variable {t : Duration} {n word : ℕ}

/-- What is granted is what costs no more than the bucket holds. -/
theorem acquire_allowed_iff_cost (h : config.Valid) :
    (new config).answer (.acquire n t) word = .decision .allowed ↔
      n ≤ config.capacity ∧ (new config).cost n ≤ (new config).credit word t := by
  rw [acquire_allowed_iff h, waitFor_eq_zero_iff_le h, availableIn_eq]
  by_cases hcap : n ≤ config.capacity
  · rw [cost_le_iff h hcap, and_iff_right hcap]
  · have hle := tokensIn_le h ((new config).credit word t)
    exact iff_of_false (by omega) (fun hboth => hcap hboth.1)

/-- A grant takes its cost from the bucket, nothing included. -/
theorem credit_after_acquire (h : config.Valid)
    (hallowed : (new config).answer (.acquire n t) word = .decision .allowed) :
    (new config).credit ((new config).after (.acquire n t) word) t =
      (new config).credit word t - (new config).cost n := by
  rw [acquire_after h _ _ _ ((acquire_allowed_iff h _ _ _).mp hallowed)]
  split
  · rename_i hzero
    rw [hzero, cost_zero, Nat.sub_zero]
  · exact credit_add ..

theorem oneByOne_cons (self : Core) (ns : List ℕ) : AllAllowed (self.oneByOne t word (n :: ns)).1 ↔
    self.answer (.acquire n t) word = .decision .allowed ∧
      AllAllowed (self.oneByOne t (self.after (.acquire n t) word) ns).1 :=
  List.forall_mem_cons

/-- A batch is allowed if each request can ever be and the costs fit together. -/
theorem oneByOne_allowed_iff (h : config.Valid) (ns : List ℕ) :
    AllAllowed ((new config).oneByOne t word ns).1 ↔
      (∀ n ∈ ns, n ≤ config.capacity) ∧ (ns.map (new config).cost).sum ≤ (new config).credit word t := by
  induction ns generalizing word with
  | nil => simp [AllAllowed, oneByOne, execAll]
  | cons n ns ih =>
    rw [oneByOne_cons, List.forall_mem_cons, List.map_cons, List.sum_cons]
    by_cases hallowed : (new config).answer (.acquire n t) word = .decision .allowed
    · have hcost := (acquire_allowed_iff_cost h).mp hallowed
      rw [ih, credit_after_acquire h hallowed, and_iff_right hallowed, and_iff_right hcost.1]
      exact and_congr_right fun _ => by omega
    · rw [acquire_allowed_iff_cost h] at hallowed
      refine iff_of_false (fun hboth => ?_) (fun hboth => ?_)
      · exact hallowed ((acquire_allowed_iff_cost h).mp hboth.1)
      · exact hallowed ⟨hboth.1.1, by omega⟩

theorem sum_cost_zero (self : Core) {ns : List ℕ} (hzero : ns.sum = 0) : (ns.map self.cost).sum = 0 := by
  apply List.sum_eq_zero
  intro units hunits
  obtain ⟨n, hn, rfl⟩ := List.mem_map.mp hunits
  have hle := List.le_sum_of_mem hn
  obtain rfl : n = 0 := by omega
  exact self.cost_zero

/-- A batch that is allowed charges all its costs to the word its first charge found. -/
theorem oneByOne_word (h : config.Valid) {ns : List ℕ}
    (hallowed : AllAllowed ((new config).oneByOne t word ns).1) :
    ((new config).oneByOne t word ns).2 =
      if ns.sum = 0 then word else (new config).base word t + (ns.map (new config).cost).sum := by
  induction ns generalizing word with
  | nil => rfl
  | cons n ns ih =>
    rw [oneByOne_cons] at hallowed
    have hafter := acquire_after h n word t ((acquire_allowed_iff h _ _ _).mp hallowed.1)
    have hrest := ih hallowed.2
    rw [hafter] at hrest
    rw [List.sum_cons, List.map_cons, List.sum_cons]
    show ((new config).oneByOne t ((new config).after (.acquire n t) word) ns).2 = _
    rw [hafter, hrest]
    by_cases hzero : n = 0
    · rw [if_pos hzero, hzero, cost_zero, Nat.zero_add, Nat.zero_add]
    · have hsum : n + ns.sum ≠ 0 := by omega
      rw [if_neg hzero, if_neg hsum]
      split
      · rename_i hnone
        rw [sum_cost_zero _ hnone, Nat.add_zero]
      · -- a charged word is past the word of a full bucket
        unfold base
        omega

theorem cost_add_le (h : config.Valid) {m : ℕ} (hcap : m + n ≤ config.capacity) :
    (new config).cost (m + n) ≤ (new config).cost m + (new config).cost n := by
  rcases le_or_gt 0 (new config).unitShift with hs | hs
  · rw [cost_exact h hs hcap, cost_exact h hs (by omega), cost_exact h hs (by omega), Nat.add_mul]
  · have hgrain := grain_pos (new config)
    rw [cost_multi h hs, cost_multi h hs, cost_multi h hs, ceilDiv_le_iff_le_mul hgrain, Nat.mul_add]
    exact Nat.add_le_add ((ceilDiv_le_iff_le_mul hgrain).mp le_rfl) ((ceilDiv_le_iff_le_mul hgrain).mp le_rfl)

/-- Each request is rounded up to units alone, so apart they cost no less than together. -/
theorem cost_sum_le (h : config.Valid) {ns : List ℕ} (hcap : ns.sum ≤ config.capacity) :
    (new config).cost ns.sum ≤ (ns.map (new config).cost).sum := by
  induction ns with
  | nil => exact (cost_zero _).le
  | cons n ns ih =>
    rw [List.sum_cons] at hcap ⊢
    calc (new config).cost (n + ns.sum)
        ≤ (new config).cost n + (new config).cost ns.sum := cost_add_le h hcap
      _ ≤ (new config).cost n + (ns.map (new config).cost).sum := Nat.add_le_add_left (ih (by omega)) _

/-- Where a unit is at most a token, nothing is rounded. -/
theorem sum_cost_exact (h : config.Valid) (hs : 0 ≤ (new config).unitShift) {ns : List ℕ}
    (hcap : ∀ n ∈ ns, n ≤ config.capacity) :
    (ns.map (new config).cost).sum = ns.sum * (new config).grain := by
  rw [List.map_congr_left fun n hn => cost_exact h hs (hcap n hn), List.sum_map_mul_right, List.map_id']

section Exact

variable (h : config.Valid) (hs : 0 ≤ (new config).unitShift)

include h hs

theorem oneByOne_iff_together {ns : List ℕ} : AllAllowed ((new config).oneByOne t word ns).1 ↔
    (new config).answer (.acquire ns.sum t) word = .decision .allowed := by
  -- what the bucket holds is no more than its capacity, so a sum that fits it is no larger
  have hroom : (new config).credit word t ≤ config.capacity * (new config).grain := by
    rw [← burst_exact h hs]
    exact credit_le_burst h word t
  rw [oneByOne_allowed_iff h, acquire_allowed_iff_cost h]
  constructor
  · rintro ⟨hcaps, hfit⟩
    rw [sum_cost_exact h hs hcaps] at hfit
    have hsum : ns.sum ≤ config.capacity :=
      Nat.le_of_mul_le_mul_right (hfit.trans hroom) (grain_pos (new config))
    exact ⟨hsum, by rwa [cost_exact h hs hsum]⟩
  · rintro ⟨hsum, hfit⟩
    have hcaps : ∀ n ∈ ns, n ≤ config.capacity := fun n hn => (List.le_sum_of_mem hn).trans hsum
    rw [cost_exact h hs hsum] at hfit
    exact ⟨hcaps, by rwa [sum_cost_exact h hs hcaps]⟩

theorem oneByOne_word_exact {ns : List ℕ} (hallowed : AllAllowed ((new config).oneByOne t word ns).1) :
    (new config).after (.acquire ns.sum t) word = ((new config).oneByOne t word ns).2 := by
  have hone := (oneByOne_iff_together h hs).mp hallowed
  have hcaps := ((oneByOne_allowed_iff h ns).mp hallowed).1
  rw [acquire_after h _ _ _ ((acquire_allowed_iff h _ _ _).mp hone), oneByOne_word h hallowed,
    sum_cost_exact h hs hcaps, cost_exact h hs ((acquire_allowed_iff_cost h).mp hone).1]

/-- A grant shows as so many tokens less. -/
theorem availableIn_after_acquire (hallowed : (new config).answer (.acquire n t) word = .decision .allowed) :
    (new config).availableIn ((new config).after (.acquire n t) word) t =
      (new config).availableIn word t - n := by
  have hcap := ((acquire_allowed_iff_cost h).mp hallowed).1
  have hroom := credit_le_burst h word t
  have hmul : config.capacity * (new config).grain / (new config).grain = config.capacity :=
    Nat.mul_div_cancel _ (grain_pos _)
  rw [availableIn_eq, availableIn_eq, credit_after_acquire h hallowed, cost_exact h hs hcap,
    tokensIn_exact h hs, tokensIn_exact h hs, Nat.mul_comm n, Nat.sub_mul_div]
  rw [burst_exact h hs] at hroom
  have hfull := Nat.div_le_div_right (c := (new config).grain) hroom
  omega

end Exact

end OneReading

/-- Requests made one after the other at one reading, all granted and together up to the capacity, could
have been one request, which leaves the bucket no emptier.  Where a unit is at most a token that holds of
any that are all granted, and conversely, so it makes no difference how a request is split or in which
order its parts are made. -/
theorem splits_agree (h : config.Valid) (ns : List ℕ) (word : ℕ) (t : Duration) :
    (AllAllowed ((new config).oneByOne t word ns).1 → ns.sum ≤ config.capacity →
      (new config).answer (.acquire ns.sum t) word = .decision .allowed ∧
        (new config).after (.acquire ns.sum t) word ≤ ((new config).oneByOne t word ns).2) ∧
    (10 * config.refillAmount ≤ 43 * config.refillPeriod.asNanos →
      (AllAllowed ((new config).oneByOne t word ns).1 ↔
        (new config).answer (.acquire ns.sum t) word = .decision .allowed) ∧
      (AllAllowed ((new config).oneByOne t word ns).1 →
        (new config).after (.acquire ns.sum t) word = ((new config).oneByOne t word ns).2)) := by
  constructor
  · intro hallowed hsum
    have hcost := cost_sum_le h hsum
    have hfit := (oneByOne_allowed_iff h ns).mp hallowed
    have hone := (acquire_allowed_iff_cost h).mpr ⟨hsum, hcost.trans hfit.2⟩
    refine ⟨hone, ?_⟩
    rw [acquire_after h _ _ _ ((acquire_allowed_iff h _ _ _).mp hone), oneByOne_word h hallowed]
    split
    · exact le_rfl
    · omega
  · intro hexact
    have hs := (unitChoice h).nonneg_iff.mpr hexact
    exact ⟨oneByOne_iff_together h hs, oneByOne_word_exact h hs⟩

theorem splits_agree_perSecond :
    (new (Bucket.perSecond 5)).after (.acquire [2, 0, 3].sum .zero) (Bucket.start (Bucket.perSecond 5)) =
      ((new (Bucket.perSecond 5)).oneByOne .zero (Bucket.start (Bucket.perSecond 5)) [2, 0, 3]).2 :=
  ((splits_agree (Bucket.perSecond_valid (by decide)) [2, 0, 3] (Bucket.start (Bucket.perSecond 5)) .zero).2
    (by decide)).2 (by decide +kernel)

/-- However a request for up to so many tokens is split, its parts get what it would, and leave what it
would: as many as are asked for in all, or all there are. -/
theorem upTo_splits_agree (h : config.Valid)
    (hexact : 10 * config.refillAmount ≤ 43 * config.refillPeriod.asNanos) (ns : List ℕ) (word : ℕ)
    (t : Duration) :
    let split := execAll (new config).program word (ns.map fun n => .acquireUpTo n t)
    (split.1.map fun r => r.1.taken r.2.value).sum = min ns.sum ((new config).availableIn word t) ∧
      split.2 = (new config).after (.acquireUpTo ns.sum t) word := by
  have hs := (unitChoice h).nonneg_iff.mpr hexact
  induction ns generalizing word with
  | nil => exact ⟨(Nat.zero_min _).symm, rfl⟩
  | cons n ns ih =>
    have hfirst := acquireUpTo_agrees h n word t
    have hall := acquireUpTo_agrees h (n + ns.sum) word t
    have hrest := ih ((new config).after (.acquireUpTo n t) word)
    have hnext := acquireUpTo_agrees h ns.sum ((new config).after (.acquireUpTo n t) word) t
    have hthere : ∀ k ≤ (new config).availableIn word t,
        (new config).answer (.acquire k t) word = .decision .allowed := fun k hk =>
      (acquire_allowed_iff h _ _ _).mpr ((waitFor_eq_zero_iff_le h).mpr hk)
    have hleft : (new config).availableIn ((new config).after (.acquireUpTo n t) word) t =
        (new config).availableIn word t - min n ((new config).availableIn word t) := by
      rw [hfirst.2]
      exact availableIn_after_acquire h hs (hthere _ (min_le_right _ _))
    rw [hleft] at hrest hnext
    set a := (new config).availableIn word t
    have htogether : min n a + min ns.sum (a - min n a) = min (n + ns.sum) a := by omega
    intro split
    constructor
    · show Call.taken (.acquireUpTo n t) ((new config).answer (.acquireUpTo n t) word) + _ = _
      rw [hfirst.1, List.sum_cons, ← htogether]
      exact congrArg (min n a + ·) hrest.1
    · -- the two grants are a batch of two
      have hpair : AllAllowed ((new config).oneByOne t word [min n a, min ns.sum (a - min n a)]).1 := by
        apply (oneByOne_iff_together h hs).mpr
        apply hthere
        simp only [List.sum_cons, List.sum_nil]
        omega
      have hword := oneByOne_word_exact h hs hpair
      rw [List.sum_cons, hall.2, ← htogether]
      simp only [List.sum_cons, List.sum_nil, Nat.add_zero] at hword
      rw [hword]
      refine hrest.2.trans (hnext.2.trans ?_)
      rw [hfirst.2]
      rfl

theorem upTo_splits_agree_perSecond :
    (execAll (new (Bucket.perSecond 5)).program (Bucket.start (Bucket.perSecond 5))
        ([3, 1, 4].map fun n => .acquireUpTo n .zero)).2 =
      (new (Bucket.perSecond 5)).after (.acquireUpTo [3, 1, 4].sum .zero) (Bucket.start (Bucket.perSecond 5)) :=
  (upTo_splits_agree (Bucket.perSecond_valid (by decide)) (by decide) [3, 1, 4]
    (Bucket.start (Bucket.perSecond 5)) .zero).2

end BetterBucket.Core

import BetterBucket.Engine.Bucket
import BetterBucket.Protocol.Sequential

/-!
# What one reading yields

Calls made one after the other at the same reading.  Where a unit is several tokens, a full bucket
is worth more than its capacity, and a refund in pieces more than the take it undoes; the conditions
are exact.
-/

namespace BetterBucket.Core

open CasLoop MachineWords

/-- A call that takes what there is at `t`, or nothing. -/
def Immediate (t : Duration) (c : Call) : Prop :=
  ∃ n, c = .acquire n t ∨ c = .acquireUpTo n t ∨ c = .reserve n .zero t

def granted (rs : List (Call × Exit Answer)) : ℕ := (rs.map fun r => r.1.taken r.2.value).sum

variable {config : BucketConfig}

theorem Immediate.waited_eq_zero (config : BucketConfig) {t : Duration} {c : Call} (hc : Immediate t c) (word : ℕ) :
    c.waited (((new config).program c).exec word).1.value = 0 := by
  obtain ⟨n, rfl | rfl | rfl⟩ := hc
  · rfl
  · rfl
  · exact Nat.le_zero.mp ((new config).reserve_waited_le n .zero t word)

/-- An immediate call takes tokens that are there, or leaves the bucket as it is. -/
theorem immediate_exec (h : config.Valid) {t : Duration} {c : Call} (hc : Immediate t c) (word : ℕ) :
    (c.taken (((new config).program c).exec word).1.value = 0 ∧
      (((new config).program c).exec word).2 = word) ∨
    ∃ n, 0 < n ∧ n ≤ config.capacity ∧ (new config).cost n ≤ (new config).credit word t ∧
      c.taken (((new config).program c).exec word).1.value = n ∧
      (((new config).program c).exec word).2 = (new config).base word t + (new config).cost n := by
  have hwaited := hc.waited_eq_zero config word
  obtain ⟨hreading, hreset⟩ : c.reading = some t ∧ c.isReset = false := by
    obtain ⟨n, rfl | rfl | rfl⟩ := hc <;> exact ⟨rfl, rfl⟩
  apply (exec_take h hreading hreset word).imp_right
  rintro ⟨n, hpos, hcap, htaken, hword, hcovered⟩
  have hdue : (new config).cost n ≤ (new config).credit word t := by
    rw [hwaited, Nat.add_zero, ← units_eq h] at hcovered
    unfold credit
    omega
  exact ⟨n, hpos, hcap, hdue, htaken, hword⟩

/-! ## Taking what is there -/

/-- Whole units make up the capacity, or the bucket is short of full at `t`. -/
def YieldExact (config : BucketConfig) (word : ℕ) (t : Duration) : Prop :=
  0 ≤ (new config).unitShift ∨ (new config).grain ∣ config.capacity ∨
    config.capacity ≤ (new config).grain ∨ (new config).units t < word + (new config).burst

instance (config : BucketConfig) (word : ℕ) (t : Duration) : Decidable (YieldExact config word t) :=
  inferInstanceAs (Decidable (_ ∨ _ ∨ _ ∨ _))

section Take

variable {n credit : ℕ}

/-- Where costs are exact, a take leaves the rest. -/
theorem add_tokensIn_le_of_exact (h : config.Valid) (hs : 0 ≤ (new config).unitShift)
    (hcap : n ≤ config.capacity) (hcost : (new config).cost n ≤ credit)
    (hcredit : credit ≤ (new config).burst) :
    n + (new config).tokensIn (credit - (new config).cost n) ≤ (new config).tokensIn credit := by
  have hgrain := grain_pos (new config)
  rw [cost_exact h hs hcap] at hcost ⊢
  rw [burst_exact h hs] at hcredit
  have hwhole : credit / (new config).grain ≤ config.capacity :=
    Nat.div_le_of_le_mul (by rwa [Nat.mul_comm] at hcredit)
  have hn : n ≤ credit / (new config).grain := (Nat.le_div_iff_mul_le hgrain).mpr hcost
  rw [tokensIn_exact h hs, tokensIn_exact h hs, Nat.mul_comm n, Nat.sub_mul_div, min_eq_left hwhole]
  omega

/-- Where a unit is several tokens, a take pays for what it leaves behind in its last unit, unless
that is the overhang of a full bucket. -/
theorem add_tokensIn_le_of_multi (h : config.Valid) (hs : (new config).unitShift < 0) (hpos : 0 < n)
    (hcap : n ≤ config.capacity) (hcost : (new config).cost n ≤ credit)
    (hcredit : credit ≤ (new config).burst)
    (hexact : (new config).grain ∣ config.capacity ∨ config.capacity ≤ (new config).grain ∨
      credit < (new config).burst) :
    n + (new config).tokensIn (credit - (new config).cost n) ≤ (new config).tokensIn credit := by
  have hgrain := grain_pos (new config)
  have hcostPos := cost_pos h hpos hcap
  have hprice : n ≤ (new config).cost n * (new config).grain := by
    rw [cost_multi h hs]
    exact Scale.le_ceilDiv_mul hgrain
  have hsplit : (credit - (new config).cost n) * (new config).grain +
      (new config).cost n * (new config).grain = credit * (new config).grain := by
    rw [← Nat.add_mul, Nat.sub_add_cancel hcost]
  rw [tokensIn_multi h hs, tokensIn_multi h hs]
  by_cases hshort : credit < (new config).burst
  · have hroom := (lt_burst_iff h hs credit).mp hshort
    omega
  · have hfull : credit = (new config).burst := by omega
    rcases hexact with hdvd | hcoarse | hshort'
    · -- a full bucket is a whole number of units
      have hwhole : (new config).burst * (new config).grain = config.capacity :=
        cost_mul_grain_of_dvd h hs hdvd
      rw [← hfull] at hwhole
      omega
    · -- a full bucket is one unit, and the take empties it
      have hone : (new config).burst = 1 := cost_eq_one h hs (config.valid_iff.mp h).1 hcoarse
      have hempty : credit - (new config).cost n = 0 := by omega
      have hroom : ¬ credit * (new config).grain < config.capacity := by
        rw [← lt_burst_iff h hs]
        exact hshort
      rw [hempty, Nat.zero_mul, Nat.zero_min]
      omega
    · exact absurd hshort' hshort

/-- A take and what is left after it are no more than what was there. -/
theorem add_tokensIn_le (h : config.Valid) (hpos : 0 < n) (hcap : n ≤ config.capacity)
    (hcost : (new config).cost n ≤ credit) (hcredit : credit ≤ (new config).burst)
    (hexact : 0 ≤ (new config).unitShift ∨ (new config).grain ∣ config.capacity ∨
      config.capacity ≤ (new config).grain ∨ credit < (new config).burst) :
    n + (new config).tokensIn (credit - (new config).cost n) ≤ (new config).tokensIn credit := by
  by_cases hs : 0 ≤ (new config).unitShift
  · exact add_tokensIn_le_of_exact h hs hcap hcost hcredit
  · exact add_tokensIn_le_of_multi h (not_le.mp hs) hpos hcap hcost hcredit (hexact.resolve_left hs)

end Take

theorem yield_le (h : config.Valid) {t : Duration} {cs : List Call} (hcs : ∀ c ∈ cs, Immediate t c)
    {word : ℕ} (hexact : YieldExact config word t) :
    granted (execAll (new config).program word cs).1 +
        (new config).availableIn (execAll (new config).program word cs).2 t ≤
      (new config).availableIn word t := by
  induction cs generalizing word with
  | nil => simp [execAll, granted]
  | cons c cs ih =>
    have hrest : YieldExact config (((new config).program c).exec word).2 t → _ :=
      ih fun c' hc' => hcs c' (List.mem_cons_of_mem _ hc')
    simp only [execAll, granted, List.map_cons, List.sum_cons] at hrest ⊢
    rcases immediate_exec h (hcs c List.mem_cons_self) word with
      ⟨htaken, hword⟩ | ⟨n, hpos, hcap, hcost, htaken, hword⟩
    · rw [hword] at hrest ⊢
      have := hrest hexact
      omega
    · have hcostPos := cost_pos h hpos hcap
      have hburstPos := burst_pos h
      have hstep := add_tokensIn_le h hpos hcap hcost (credit_le_burst h word t) (by
        refine hexact.imp_right (Or.imp_right (Or.imp_right fun hshort => ?_))
        unfold credit base
        omega)
      rw [hword] at hrest ⊢
      have hafter : (new config).availableIn ((new config).base word t + (new config).cost n) t =
          (new config).tokensIn ((new config).credit word t - (new config).cost n) := by
        rw [availableIn_eq, credit_add]
      have hnext : YieldExact config ((new config).base word t + (new config).cost n) t := by
        refine hexact.imp_right (Or.imp_right (Or.imp_right fun _ => ?_))
        unfold base
        omega
      have := hrest hnext
      have hbefore := availableIn_eq (new config) word t
      omega

/-- One whole unit out of a full bucket leaves more than the rest of the capacity. -/
theorem unit_yields_more (h : config.Valid) {word : ℕ} {t : Duration} (hnot : ¬ YieldExact config word t) :
    (new config).availableIn word t <
      granted (execAll (new config).program word [.acquire (new config).grain t]).1 +
        (new config).availableIn (execAll (new config).program word [.acquire (new config).grain t]).2 t := by
  simp only [YieldExact, not_or, not_le, not_lt] at hnot
  obtain ⟨hs, hdvd, hcoarse, hfull⟩ := hnot
  have hgrain := grain_pos (new config)
  have hburstPos := burst_pos h
  have hcostUnit := cost_eq_one h hs hgrain le_rfl
  have hcredit : (new config).credit word t = (new config).burst := by
    unfold credit base
    omega
  have hpaid : (new config).cost (new config).grain ≤ (new config).credit word t := by
    rw [hcostUnit, hcredit]
    omega
  have hexec := acquire_exec h hgrain hcoarse.le hpaid
  simp only [execAll, hexec, granted, List.map_cons, List.map_nil, List.sum_cons, List.sum_nil,
    Call.taken, availableIn_eq, credit_add, hcostUnit, hcredit]
  rw [tokensIn_multi h hs, tokensIn_multi h hs]
  -- the last unit of a full bucket is not worth all its tokens
  have hlast := (lt_burst_iff h hs ((new config).burst - 1)).mp (by omega)
  have hprice : config.capacity ≤ (new config).burst * (new config).grain := by
    rw [burst, cost_multi h hs]
    exact Scale.le_ceilDiv_mul hgrain
  have hne : config.capacity ≠ (new config).burst * (new config).grain :=
    fun heq => hdvd ⟨(new config).burst, by rw [heq, Nat.mul_comm]⟩
  have hsplit : ((new config).burst - 1) * (new config).grain + (new config).grain =
      (new config).burst * (new config).grain := by
    rw [← Nat.succ_mul, Nat.succ_eq_add_one, Nat.sub_add_cancel (by omega)]
  omega

/-- What one reading yields, however it is asked for, with what is left after it, is no more than
what was there: exactly when the units of a full bucket are worth its capacity, or it is not full. -/
theorem frozen_yield_iff (h : config.Valid) (word : ℕ) (t : Duration) :
    (∀ cs : List Call, (∀ c ∈ cs, Immediate t c) →
      granted (execAll (new config).program word cs).1 +
          (new config).availableIn (execAll (new config).program word cs).2 t ≤
        (new config).availableIn word t) ↔ YieldExact config word t := by
  constructor
  · intro hyield
    by_contra hnot
    have hle := hyield [.acquire (new config).grain t] (by simp [Immediate])
    exact absurd hle (not_le.mpr (unit_yields_more h hnot))
  · intro hexact cs hcs
    exact yield_le h hcs hexact

/-- Five tokens a nanosecond: a unit is two tokens. -/
def pairs (capacity initial : U32) : BucketConfig := .raw capacity 5 (.saturating 1) initial

theorem pairs_valid {capacity : U32} (hcap : 0 < capacity.val) (initial : U32) :
    (pairs capacity initial).Valid :=
  (BucketConfig.valid_iff _).mpr
    ⟨hcap, (by decide : 0 < (5 : U32).val), (by decide : 0 < (Duration.saturating 1).asNanos)⟩

/-- Two pairs: out of four tokens, four. -/
theorem frozen_yield_iff_twoPairs :
    granted (execAll (new (pairs 4 4)).program (start (pairs 4 4) .zero)
        [.acquire 2 .zero, .acquireUpTo 9 .zero]).1 +
      (new (pairs 4 4)).availableIn
        (execAll (new (pairs 4 4)).program (start (pairs 4 4) .zero)
          [.acquire 2 .zero, .acquireUpTo 9 .zero]).2 .zero ≤
      (new (pairs 4 4)).availableIn (start (pairs 4 4) .zero) .zero :=
  (frozen_yield_iff (pairs_valid (by decide) 4) _ _).mpr (by decide +kernel) _ (by simp [Immediate])

/-- A pair and a half: out of three tokens, two taken and two left. -/
theorem oddCapacity_yields_more :
    (pairs 3 3).Valid ∧ (∀ c ∈ [Call.acquire 2 .zero], Immediate .zero c) ∧
      (new (pairs 3 3)).availableIn (start (pairs 3 3) .zero) .zero <
        granted (execAll (new (pairs 3 3)).program (start (pairs 3 3) .zero) [.acquire 2 .zero]).1 +
          (new (pairs 3 3)).availableIn
            (execAll (new (pairs 3 3)).program (start (pairs 3 3) .zero) [.acquire 2 .zero]).2 .zero :=
  ⟨pairs_valid (by decide) 3, by simp [Immediate], by decide +kernel⟩

/-! ## Giving back what was taken -/

/-- A call that takes what there is at `t`, or gives back. -/
def TakesOrReturns (t : Duration) (c : Call) : Prop :=
  ∃ n, c = .acquire n t ∨ c = .acquireUpTo n t ∨ c = .refund n

def returned (capacity : ℕ) (rs : List (Call × Exit Answer)) : ℕ :=
  (rs.map fun r => r.1.refunded capacity).sum

/-- At most one token a unit, or nothing in the bucket at `t`, or no room in it. -/
def ReturnExact (config : BucketConfig) (word : ℕ) (t : Duration) : Prop :=
  0 ≤ (new config).unitShift ∨ (new config).units t ≤ word ∨
    word + (new config).burst ≤ (new config).units t

instance (config : BucketConfig) (word : ℕ) (t : Duration) : Decidable (ReturnExact config word t) :=
  inferInstanceAs (Decidable (_ ∨ _ ∨ _))

/-- A returning call is an immediate one, gives back nothing, or moves the word back by the cost of
what it gives back. -/
theorem takesOrReturns_cases (config : BucketConfig) {t : Duration} {c : Call} (hc : TakesOrReturns t c) (word : ℕ) :
    (Immediate t c ∧ c.refunded config.capacity = 0) ∨
      (c.taken (((new config).program c).exec word).1.value = 0 ∧
        (((new config).program c).exec word).2 =
          word - (new config).cost (c.refunded config.capacity)) := by
  obtain ⟨n, rfl | rfl | rfl⟩ := hc
  · exact .inl ⟨⟨n, .inl rfl⟩, rfl⟩
  · exact .inl ⟨⟨n, .inr (.inl rfl)⟩, rfl⟩
  · right
    exact ⟨rfl, refund_word config n word⟩

/-- Where costs are exact, the word keeps the account of what was taken and given back. -/
theorem word_add_granted_le (h : config.Valid) (hs : 0 ≤ (new config).unitShift) {t : Duration}
    {cs : List Call} (hcs : ∀ c ∈ cs, TakesOrReturns t c) (word : ℕ) :
    word + granted (execAll (new config).program word cs).1 * (new config).grain ≤
      (execAll (new config).program word cs).2 +
        returned config.capacity (execAll (new config).program word cs).1 * (new config).grain := by
  induction cs generalizing word with
  | nil => simp [execAll, granted, returned]
  | cons c cs ih =>
    have hrest := ih (fun c' hc' => hcs c' (List.mem_cons_of_mem _ hc'))
      (((new config).program c).exec word).2
    simp only [execAll, granted, returned, List.map_cons, List.sum_cons, Nat.add_mul] at hrest ⊢
    rcases takesOrReturns_cases config (hcs c List.mem_cons_self) word with
      ⟨himmediate, hnone⟩ | ⟨htaken, hword⟩
    · rcases immediate_exec h himmediate word with
        ⟨htaken, hword⟩ | ⟨n, -, hcap, -, htaken, hword⟩
      · rw [hword] at hrest ⊢
        rw [htaken]
        omega
      · have hcost := cost_exact h hs hcap
        have hbase : word ≤ (new config).base word t := le_max_left _ _
        rw [hword] at hrest ⊢
        rw [htaken, hnone]
        omega
    · have hcap : c.refunded config.capacity ≤ config.capacity := by
        unfold Call.refunded
        split <;> omega
      have hcost := cost_exact h hs hcap
      rw [hword] at hrest ⊢
      rw [htaken]
      omega

/-- Out of an empty bucket nothing is taken, so nothing may be given back. -/
theorem execAll_of_empty (h : config.Valid) {t : Duration} {cs : List Call}
    (hcs : ∀ c ∈ cs, TakesOrReturns t c) {word : ℕ} (hempty : (new config).units t ≤ word)
    (hheld : ∀ pre, pre <+: cs → returned config.capacity (execAll (new config).program word pre).1 ≤
      granted (execAll (new config).program word pre).1) :
    (execAll (new config).program word cs).2 = word := by
  induction cs with
  | nil => rfl
  | cons c cs ih =>
    have hfirst := hheld [c] (List.cons_prefix_cons.mpr ⟨rfl, List.nil_prefix⟩)
    simp only [execAll, granted, returned, List.map_cons, List.map_nil, List.sum_cons, List.sum_nil,
      Nat.add_zero] at hfirst
    have hstep : c.taken (((new config).program c).exec word).1.value = 0 ∧
        (((new config).program c).exec word).2 = word := by
      rcases takesOrReturns_cases config (hcs c List.mem_cons_self) word with
        ⟨himmediate, -⟩ | ⟨htaken, hword⟩
      · rcases immediate_exec h himmediate word with hnone | ⟨n, hpos, hcap, hcost, -⟩
        · exact hnone
        · have hcostPos := cost_pos h hpos hcap
          unfold credit base at hcost
          omega
      · refine ⟨htaken, ?_⟩
        rw [htaken, Nat.le_zero] at hfirst
        rw [hword, hfirst, cost_zero, Nat.sub_zero]
    simp only [execAll, hstep.2]
    refine ih (fun c' hc' => hcs c' (List.mem_cons_of_mem _ hc')) fun pre hpre => ?_
    have hnext := hheld (c :: pre) (List.cons_prefix_cons.mpr ⟨rfl, hpre⟩)
    simp only [execAll, granted, returned, List.map_cons, List.sum_cons, hstep.1, hstep.2] at hnext hfirst ⊢
    omega

/-- Two tokens of one unit, given back one by one as two units. -/
theorem split_returns_more (h : config.Valid) {word : ℕ} {t : Duration}
    (hnot : ¬ ReturnExact config word t) :
    (∀ pre, pre <+: [Call.acquire 2 t, .refund 1, .refund 1] →
        returned config.capacity (execAll (new config).program word pre).1 ≤
          granted (execAll (new config).program word pre).1) ∧
      returned config.capacity (execAll (new config).program word [.acquire 2 t, .refund 1, .refund 1]).1 =
        granted (execAll (new config).program word [.acquire 2 t, .refund 1, .refund 1]).1 ∧
      (new config).availableIn word t < (new config).availableIn
        (execAll (new config).program word [.acquire 2 t, .refund 1, .refund 1]).2 t := by
  simp only [ReturnExact, not_or, not_le] at hnot
  obtain ⟨hs, hsome, hroom⟩ := hnot
  have hgrain : 2 ≤ (new config).grain := by
    rw [grain]
    exact Nat.le_self_pow (by omega) 2
  have hburst := burst_lt_units h t
  have hbase : (new config).base word t = word := max_eq_left (by omega)
  have hcredit : (new config).credit word t = (new config).units t - word := by rw [credit, hbase]
  have hshort := (lt_burst_iff h hs ((new config).credit word t)).mp (by omega)
  have hunit := Nat.le_mul_of_pos_left (new config).grain (by omega : 0 < (new config).credit word t)
  have hcap : 2 ≤ config.capacity := by omega
  have hmin : min 1 config.capacity = 1 := by omega
  -- the take costs one unit, and so does each of the refunds
  have hpaid : (new config).cost 2 ≤ (new config).credit word t := by
    rw [cost_eq_one h hs two_pos hgrain]
    omega
  have htake := acquire_exec h two_pos hcap hpaid
  rw [cost_eq_one h hs two_pos hgrain, hbase] at htake
  have hback : ∀ word', ((new config).program (.refund 1)).exec word' = (⟨.unit, .none⟩, word' - 1) := by
    intro word'
    rw [refund_exec word' (by rw [new_capacity, hmin]; exact one_pos), new_capacity, hmin,
      cost_eq_one h hs one_pos (by omega)]
  refine ⟨fun pre hpre => ?_, ?_, ?_⟩
  · simp only [List.prefix_cons_iff, List.prefix_nil] at hpre
    rcases hpre with rfl | ⟨_, rfl, rfl | ⟨_, rfl, rfl | ⟨_, rfl, rfl⟩⟩⟩ <;>
      simp [execAll, htake, hback, granted, returned, Call.taken, Call.refunded, hmin]
  · simp [execAll, htake, hback, granted, returned, Call.taken, Call.refunded, hmin]
  · have hcredit' : (new config).credit (word + 1 - 1 - 1) t = (new config).credit word t + 1 := by
      unfold credit base at hcredit ⊢
      omega
    simp only [execAll, htake, hback, availableIn_eq]
    rw [hcredit', tokensIn_multi h hs, tokensIn_multi h hs, Nat.succ_mul]
    omega

theorem return_le (h : config.Valid) {t : Duration} {cs : List Call}
    (hcs : ∀ c ∈ cs, TakesOrReturns t c) {word : ℕ} (hexact : ReturnExact config word t)
    (hheld : ∀ pre, pre <+: cs → returned config.capacity (execAll (new config).program word pre).1 ≤
      granted (execAll (new config).program word pre).1)
    (hall : returned config.capacity (execAll (new config).program word cs).1 =
      granted (execAll (new config).program word cs).1) :
    (new config).availableIn (execAll (new config).program word cs).2 t ≤
      (new config).availableIn word t := by
  rcases hexact with hs | hempty | hfull
  · have hword := word_add_granted_le h hs hcs word
    rw [hall] at hword
    apply tokensIn_mono h
    omega
  · rw [execAll_of_empty h hcs hempty hheld]
  · -- a full bucket shows its capacity, which nothing exceeds
    have hcredit : (new config).burst ≤ (new config).credit word t := by
      unfold credit base
      omega
    have hmax : (new config).availableIn word t = config.capacity := by
      rw [availableIn_eq, tokensIn, if_pos hcredit, new_capacity]
    rw [hmax]
    exact tokensIn_le h _

/-- Taking at one reading and giving back what was taken, never more than is held, leaves no more
than there was: exactly when a unit is at most one token, or the bucket was empty or full. -/
theorem frozen_return_iff (h : config.Valid) (word : ℕ) (t : Duration) :
    (∀ cs : List Call, (∀ c ∈ cs, TakesOrReturns t c) →
      (∀ pre, pre <+: cs → returned config.capacity (execAll (new config).program word pre).1 ≤
        granted (execAll (new config).program word pre).1) →
      returned config.capacity (execAll (new config).program word cs).1 =
        granted (execAll (new config).program word cs).1 →
      (new config).availableIn (execAll (new config).program word cs).2 t ≤
        (new config).availableIn word t) ↔ ReturnExact config word t := by
  constructor
  · intro hreturn
    by_contra hnot
    obtain ⟨hheld, hall, hmore⟩ := split_returns_more h hnot
    have hle := hreturn [.acquire 2 t, .refund 1, .refund 1] (by simp [TakesOrReturns]) hheld hall
    exact absurd hle (not_le.mpr hmore)
  · intro hexact cs hcs hheld hall
    exact return_le h hcs hexact hheld hall

/-- Of four tokens in pairs, two taken and given back one by one. -/
theorem frozen_return_iff_fullBucket :
    (new (pairs 4 4)).availableIn
        (execAll (new (pairs 4 4)).program (start (pairs 4 4) .zero)
          [.acquire 2 .zero, .refund 1, .refund 1]).2 .zero ≤
      (new (pairs 4 4)).availableIn (start (pairs 4 4) .zero) .zero := by
  refine (frozen_return_iff (pairs_valid (by decide) 4) _ _).mpr (by decide +kernel)
    [.acquire 2 .zero, .refund 1, .refund 1] (by simp [TakesOrReturns]) ?_ (by decide +kernel)
  intro pre hpre
  simp only [List.prefix_cons_iff, List.prefix_nil] at hpre
  rcases hpre with rfl | ⟨_, rfl, rfl | ⟨_, rfl, rfl | ⟨_, rfl, rfl⟩⟩⟩ <;> decide +kernel

/-- The same from a bucket that holds two of the four: it ends with all four. -/
theorem splitRefund_mints :
    (pairs 4 2).Valid ∧
      (∀ c ∈ [Call.acquire 2 .zero, .refund 1, .refund 1], TakesOrReturns .zero c) ∧
      (∀ pre, pre <+: [Call.acquire 2 .zero, .refund 1, .refund 1] →
        returned 4 (execAll (new (pairs 4 2)).program (start (pairs 4 2) .zero) pre).1 ≤
          granted (execAll (new (pairs 4 2)).program (start (pairs 4 2) .zero) pre).1) ∧
      returned 4 (execAll (new (pairs 4 2)).program (start (pairs 4 2) .zero)
          [.acquire 2 .zero, .refund 1, .refund 1]).1 =
        granted (execAll (new (pairs 4 2)).program (start (pairs 4 2) .zero)
          [.acquire 2 .zero, .refund 1, .refund 1]).1 ∧
      (new (pairs 4 2)).availableIn (start (pairs 4 2) .zero) .zero <
        (new (pairs 4 2)).availableIn
          (execAll (new (pairs 4 2)).program (start (pairs 4 2) .zero)
            [.acquire 2 .zero, .refund 1, .refund 1]).2 .zero := by
  refine ⟨pairs_valid (by decide) 2, by simp [TakesOrReturns], ?_, by decide +kernel, by decide +kernel⟩
  intro pre hpre
  simp only [List.prefix_cons_iff, List.prefix_nil] at hpre
  rcases hpre with rfl | ⟨_, rfl, rfl | ⟨_, rfl, rfl | ⟨_, rfl, rfl⟩⟩⟩ <;> decide +kernel

end BetterBucket.Core

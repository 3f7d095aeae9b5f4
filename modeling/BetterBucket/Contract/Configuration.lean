import BetterBucket.Engine.Builder

/-!
# Configurations

What a builder chain builds, and that a configuration survives the engine.
-/

namespace BetterBucket

/-! ## Validation -/

namespace BucketConfig

variable {capacity refillAmount initial : U32} {refillPeriod : Duration}

theorem raw_initial : (raw capacity refillAmount refillPeriod initial).initial = min initial.val capacity.val := by
  unfold raw
  dsimp only
  split <;> omega

theorem eq_raw_iff {config : BucketConfig} :
    config = raw capacity refillAmount refillPeriod initial ↔ config.capacity = capacity ∧
      config.refillAmount = refillAmount ∧ config.refillPeriod = refillPeriod ∧
        config.initial = min initial.val capacity.val := by
  rw [← raw_initial]
  obtain ⟨c, a, p, i, h1, h2, h3⟩ := config
  rw [raw, mk.injEq]

/-- What `new` accepts and what it makes of it. -/
theorem new_eq_ok_iff {config : BucketConfig} :
    new capacity refillAmount refillPeriod initial = .ok config ↔
      0 < capacity.val ∧ 0 < refillAmount.val ∧ 0 < refillPeriod.asNanos ∧
        config = raw capacity refillAmount refillPeriod initial := by
  unfold new Duration.isZero
  -- in the order of the checks
  by_cases hcap : capacity.val = 0
  · rw [if_pos hcap]
    exact ⟨nofun, fun h => absurd hcap h.1.ne'⟩
  by_cases hamount : refillAmount.val = 0
  · rw [if_neg hcap, if_pos hamount]
    exact ⟨nofun, fun h => absurd hamount h.2.1.ne'⟩
  by_cases hperiod : refillPeriod.asNanos = 0
  · rw [if_neg hcap, if_neg hamount, if_pos (beq_iff_eq.mpr hperiod)]
    exact ⟨nofun, fun h => absurd hperiod h.2.2.1.ne'⟩
  · rw [if_neg hcap, if_neg hamount, if_neg (by rwa [beq_iff_eq]), Except.ok.injEq, eq_comm]
    exact ⟨fun h => ⟨Nat.pos_of_ne_zero hcap, Nat.pos_of_ne_zero hamount, Nat.pos_of_ne_zero hperiod, h⟩,
      fun h => h.2.2.2⟩

/-- The first argument that is zero, in the order of the checks. -/
theorem new_eq_error_iff {e : BucketError} :
    new capacity refillAmount refillPeriod initial = .error e ↔
      match e with
      | .zeroCapacity => capacity.val = 0
      | .zeroRefillAmount => 0 < capacity.val ∧ refillAmount.val = 0
      | .zeroRefillPeriod => 0 < capacity.val ∧ 0 < refillAmount.val ∧ refillPeriod.asNanos = 0 := by
  unfold new Duration.isZero
  split_ifs with hcap hamount hperiod
  case pos => cases e <;> simp only [Except.error.injEq, reduceCtorEq, true_iff, false_iff] <;> omega
  case pos => cases e <;> simp only [Except.error.injEq, reduceCtorEq, true_iff, false_iff] <;> omega
  case pos =>
    have hzero := beq_iff_eq.mp hperiod
    cases e <;> simp only [Except.error.injEq, reduceCtorEq, true_iff, false_iff] <;> omega
  case neg =>
    have hpos : refillPeriod.asNanos ≠ 0 := fun hzero => hperiod (beq_iff_eq.mpr hzero)
    cases e <;> simp only [false_iff] <;> omega

end BucketConfig

/-! ## Builder chains -/

namespace Setter

def capacity? : Setter → Option U32
  | .capacity n => some n
  | _ => none

def refill? : Setter → Option (U32 × Duration)
  | .refill amount period => some (amount, period)
  | _ => none

def initial? : Setter → Option U32
  | .initial n => some n
  | _ => none

end Setter

/-- The value given last, if any. -/
def lastOf {α β : Type*} (get? : α → Option β) (setters : List α) : Option β :=
  (setters.filterMap get?).getLast?

/-- A field that a setter either gives or leaves alone ends with the value given last. -/
theorem foldl_lastOf {α β γ : Type*} (set : γ → α → γ) (get? : α → Option β) (field : γ → β)
    (hset : ∀ b a, field (set b a) = (get? a).getD (field b)) (setters : List α) (b : γ) :
    field (setters.foldl set b) = (lastOf get? setters).getD (field b) := by
  -- on the last setter: it gives the field, or leaves it as the ones before did
  induction setters using List.reverseRecOn with
  | nil => rfl
  | append_singleton setters a ih =>
    rw [List.foldl_append, List.foldl_cons, List.foldl_nil, hset, ih, lastOf, lastOf, List.filterMap_append]
    cases hlast : get? a with
    | none => simp [hlast]
    | some value => simp [hlast]

theorem lastOf_map_some {α β : Type*} (get? : α → Option β) (setters : List α) :
    (lastOf (fun a => (get? a).map some) setters).getD none = lastOf get? setters := by
  have hmap : (setters.filterMap fun a => (get? a).map some) = (setters.filterMap get?).map some :=
    List.map_filterMap.symm
  rw [lastOf, hmap, List.getLast?_map, lastOf]
  cases (setters.filterMap get?).getLast? <;> rfl

section Chain

variable (setters : List Setter)

theorem chain_capacity : (BucketBuilder.chain setters).capacity =
    (lastOf Setter.capacity? setters).getD 0 :=
  foldl_lastOf BucketBuilder.set Setter.capacity? BucketBuilder.capacity (by intro b a; cases a <;> rfl) setters .new

theorem chain_refill :
    ((BucketBuilder.chain setters).refillAmount, (BucketBuilder.chain setters).refillPeriod) =
      (lastOf Setter.refill? setters).getD (0, .zero) :=
  foldl_lastOf BucketBuilder.set Setter.refill? (fun b : BucketBuilder => (b.refillAmount, b.refillPeriod))
    (by intro b a; cases a <;> rfl) setters .new

theorem chain_initial : (BucketBuilder.chain setters).initial = lastOf Setter.initial? setters := by
  have hlast := foldl_lastOf BucketBuilder.set (fun a : Setter => a.initial?.map some)
    BucketBuilder.initial (by intro b a; cases a <;> rfl) setters .new
  rwa [BucketBuilder.new, lastOf_map_some] at hlast

end Chain

/-- A chain of setters, in any order and with any repetitions, builds what `BucketConfig.new` makes of
the last of each kind, a bucket being full at first if no initial fill is given. -/
theorem builder_chain (setters : List Setter) :
    let capacity := (lastOf Setter.capacity? setters).getD 0
    let refill := (lastOf Setter.refill? setters).getD (0, .zero)
    let initial := (lastOf Setter.initial? setters).getD capacity
    (∀ config, (BucketBuilder.chain setters).buildConfig = .ok config ↔
      0 < capacity.val ∧ 0 < refill.1.val ∧ 0 < refill.2.asNanos ∧ config.capacity = capacity ∧
        config.refillAmount = refill.1 ∧ config.refillPeriod = refill.2 ∧
        config.initial = min initial.val capacity.val) ∧
    ∀ e, (BucketBuilder.chain setters).buildConfig = .error e ↔
      match e with
      | .zeroCapacity => capacity.val = 0
      | .zeroRefillAmount => 0 < capacity.val ∧ refill.1.val = 0
      | .zeroRefillPeriod => 0 < capacity.val ∧ 0 < refill.1.val ∧ refill.2.asNanos = 0 := by
  intro capacity refill initial
  have hbuild : (BucketBuilder.chain setters).buildConfig =
      BucketConfig.new capacity refill.1 refill.2 initial := by
    have hrefill : refill = _ := (chain_refill setters).symm
    have hinitial : initial = ((BucketBuilder.chain setters).initial).getD capacity := by
      rw [chain_initial]
    -- an initial fill that was never set is the capacity at the end of the chain
    rw [BucketBuilder.buildConfig, hrefill, hinitial, chain_capacity]
    cases (BucketBuilder.chain setters).initial <;> rfl
  rw [hbuild]
  refine ⟨fun config => ?_, fun e => BucketConfig.new_eq_error_iff⟩
  rw [BucketConfig.new_eq_ok_iff, BucketConfig.eq_raw_iff]

/-! ## Through the engine -/

/-- Every configuration, degenerate ones too, comes back from the engine as it was. -/
theorem Core.config_new (config : BucketConfig) : (Core.new config).config = some config := by
  have hcap : ((Fin.ofNat (2 ^ 32) config.capacity : U32) : ℕ) = config.capacity :=
    Nat.mod_eq_of_lt config.capacity_lt
  have hamount : ((Fin.ofNat (2 ^ 32) config.refillAmount : U32) : ℕ) = config.refillAmount :=
    Nat.mod_eq_of_lt config.refillAmount_lt
  have hinitial : ((Fin.ofNat (2 ^ 32) config.initial : U32) : ℕ) = config.initial :=
    Nat.mod_eq_of_lt (config.initial_le.trans_lt config.capacity_lt)
  -- the period is kept in seconds and nanoseconds
  have hperiod : Duration.new (Core.new config).periodSecs (Core.new config).periodNanos =
      some config.refillPeriod := config.refillPeriod.new_parts
  rw [Core.config, hperiod, Option.map_some, Option.some.injEq, eq_comm, BucketConfig.eq_raw_iff]
  refine ⟨hcap.symm, hamount.symm, rfl, ?_⟩
  show config.initial = min ((Fin.ofNat (2 ^ 32) config.initial : U32) : ℕ)
    ((Fin.ofNat (2 ^ 32) config.capacity : U32) : ℕ)
  rw [hinitial, hcap, min_eq_left config.initial_le]

/-- A new clock starts the bucket that was configured. -/
theorem Bucket.withClock_eq (config : BucketConfig) (now now' : ℕ) :
    (Bucket.withConfigAndClock config now).withClock now' = some (.withConfigAndClock config now') := by
  rw [Bucket.withClock, Bucket.withConfigAndClock, Core.config_new, Option.map_some]

end BetterBucket

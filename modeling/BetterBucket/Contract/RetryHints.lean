import BetterBucket.Engine.Bucket
import BetterBucket.Protocol.Decisions

/-!
# What a denial promises

A denial that names a wait is right about it to the millisecond, whatever is given back in the
meantime; one that names none is final.
-/

namespace BetterBucket.Core

open CasLoop MachineWords ScaledClock

/-- Calls that grant nothing: refunds, refused requests, observers, and resets at readings up to
`later`. -/
def GrantsNothing (later : Duration) (rs : List (Call × Exit Answer)) : Prop :=
  ∀ r ∈ rs, r.1.taken r.2.value = 0 ∧ ∀ now, r.1 = .reset now → now ≤ later

/-- The wait `w` of a denial at `t` is long enough, and too long by less than a millisecond. -/
structure HintExact (core : Core) (n word : ℕ) (t w : Duration) : Prop where
  positive : NANOS_PER_MILLI ≤ w.asNanos
  sufficient : ∃ later : Duration, later.asNanos = t.asNanos + w.asNanos ∧
    core.answer (.acquire n later) word = .decision .allowed ∧
    ∀ cs : List Call, GrantsNothing later (execAll core.program word cs).1 →
      core.answer (.acquire n later) (execAll core.program word cs).2 = .decision .allowed
  tight : ∃ earlier : Duration, earlier.asNanos + NANOS_PER_MILLI = t.asNanos + w.asNanos ∧
    ∃ w', core.answer (.acquire n earlier) word = .decision (.denied w')

section Valid

variable {config : BucketConfig} {n word : ℕ}

/-- Allowed, by the word alone: the clock has reached what the request costs. -/
theorem allowed_iff (h : config.Valid) (hpos : 0 < n) (hcap : n ≤ config.capacity) (t : Duration) :
    (new config).answer (.acquire n t) word = .decision .allowed ↔
      word + (new config).cost n ≤ (new config).units t := by
  rw [acquire_allowed_iff h, waitFor_eq_zero_iff h hpos hcap]

theorem denied_iff (h : config.Valid) (hpos : 0 < n) (hcap : n ≤ config.capacity) (t : Duration) :
    (∃ w, (new config).answer (.acquire n t) word = .decision (.denied w)) ↔
      (new config).units t < word + (new config).cost n := by
  rw [← not_le, ← waitFor_eq_zero_iff h hpos hcap, acquire_answer h]
  by_cases hdue : (new config).waitFor n word t = some .zero
  · simp [hdue]
  · simp [hdue]

/-- A request that is covered stays covered while nothing is granted. -/
theorem covered_of_grantsNothing (h : config.Valid) (hcap : n ≤ config.capacity) {later : Duration}
    {cs : List Call} (hnone : GrantsNothing later (execAll (new config).program word cs).1)
    (hdue : word + (new config).cost n ≤ (new config).units later) :
    (execAll (new config).program word cs).2 + (new config).cost n ≤ (new config).units later := by
  induction cs generalizing word with
  | nil => exact hdue
  | cons c cs ih =>
    simp only [execAll] at hnone ⊢
    apply ih (fun r hr => hnone r (List.mem_cons_of_mem _ hr))
    obtain ⟨htaken, hreset⟩ := hnone _ List.mem_cons_self
    by_cases hrefundCall : c.isRefund = true
    · obtain ⟨m, rfl⟩ := Call.eq_refund_of_isRefund hrefundCall
      rw [refund_word]
      omega
    by_cases hresetCall : c.isReset = true
    · -- a full bucket of a reading up to then covers any request
      obtain ⟨now, rfl⟩ := Call.eq_reset_of_isReset hresetCall
      have hmono := units_mono h (hreset now rfl)
      have hcost := cost_le_burst h hcap
      have hburst := burst_lt_units h now
      show (new config).units now - (new config).burst + (new config).cost n ≤ _
      omega
    · have hword := after_of_taken_eq_zero h word (Bool.eq_false_iff.mpr hrefundCall)
        (Bool.eq_false_iff.mpr hresetCall) htaken
      rw [after] at hword
      rw [hword]
      exact hdue

/-- A wait that is named ends at the first whole millisecond from the reading at which the request
is covered. -/
theorem hintExact (h : config.Valid) (hpos : 0 < n) (hcap : n ≤ config.capacity) {t w : Duration}
    (hdenied : (new config).answer (.acquire n t) word = .decision (.denied w)) (hw : w ≠ .MAX) :
    HintExact (new config) n word t w := by
  have hlate := (denied_iff h hpos hcap t).mp ⟨w, hdenied⟩
  have hwait := ((acquire_denied_iff h n word t w).mp ⟨hdenied, hw⟩).1
  have hbounds := waitFor_bounds h hpos hcap hlate hwait
  rw [waitFor_of_late h hpos hcap hlate] at hwait
  by_cases hrange : word + (new config).cost n ≤ maxValue 64
  case neg => simp [hrange] at hwait
  rw [if_pos hrange] at hwait
  have hread := le_read_of_waitUntil h hrange hwait
  have htight := waitUntil_lt h hrange hwait hlate
  have hmax := Duration.MAX.asNanos_lt
  obtain ⟨later, hlater⟩ : ∃ later : Duration, later.asNanos = t.asNanos + w.asNanos :=
    ⟨⟨t.asNanos + w.asNanos, by omega⟩, rfl⟩
  obtain ⟨earlier, hearlier⟩ : ∃ earlier : Duration,
      earlier.asNanos + NANOS_PER_MILLI = t.asNanos + w.asNanos :=
    ⟨⟨t.asNanos + w.asNanos - NANOS_PER_MILLI, by omega⟩, by dsimp only; omega⟩
  have hdue : word + (new config).cost n ≤ (new config).units later := by
    rwa [units_eq h, hlater]
  refine ⟨hbounds.1, ⟨later, hlater, (allowed_iff h hpos hcap later).mpr hdue, fun cs hnone => ?_⟩,
    earlier, hearlier, ?_⟩
  · exact (allowed_iff h hpos hcap later).mpr (covered_of_grantsNothing h hcap hnone hdue)
  · -- the due instant is not reached a millisecond before
    rw [denied_iff h hpos hcap, ← not_le, le_units_iff h hrange]
    omega

/-- A request that is denied with a wait is covered some time. -/
theorem covered_of_hint (h : config.Valid) (hpos : 0 < n) (hcap : n ≤ config.capacity)
    {t w : Duration} (hdenied : (new config).answer (.acquire n t) word = .decision (.denied w))
    (hw : w ≠ .MAX) : word + (new config).cost n ≤ (new config).units .MAX := by
  obtain ⟨later, -, hallowed, -⟩ := (hintExact h hpos hcap hdenied hw).sufficient
  exact ((allowed_iff h hpos hcap later).mp hallowed).trans
    (units_mono h (Duration.asNanos_le_max later))

/-- What is past the end of the clock at one reading is past it at every reading. -/
theorem late_of_waitFor_eq_none (h : config.Valid) (hpos : 0 < n) (hcap : n ≤ config.capacity)
    {t : Duration} (hlate : (new config).units t < word + (new config).cost n)
    (hnone : (new config).waitFor n word t = none) (s : Duration) :
    (new config).units s < word + (new config).cost n := by
  rw [waitFor_of_late h hpos hcap hlate] at hnone
  by_cases hrange : word + (new config).cost n ≤ maxValue 64
  · rw [if_pos hrange, waitUntil_eq_none_iff] at hnone
    rw [← not_le, le_units_iff h hrange]
    omega
  · have hmax := units_le h s
    omega

/-- Denials tell the truth about waiting: what is allowed stays allowed later, a named wait is exact
to the millisecond, and no wait is named just when there is none. -/
theorem retry_hints (h : config.Valid) (word : ℕ) (hpos : 0 < n) (hcap : n ≤ config.capacity) :
    (∀ s t : Duration, s ≤ t → (new config).answer (.acquire n s) word = .decision .allowed →
      (new config).answer (.acquire n t) word = .decision .allowed) ∧
    (∀ t w, (new config).answer (.acquire n t) word = .decision (.denied w) → w ≠ .MAX →
      HintExact (new config) n word t w) ∧
    ∀ t, (new config).answer (.acquire n t) word = .decision (.denied .MAX) ↔
      ∀ s, ∃ w, (new config).answer (.acquire n s) word = .decision (.denied w) := by
  refine ⟨fun s t hst hallowed => ?_, fun t w => hintExact h hpos hcap, fun t => ⟨?_, ?_⟩⟩
  · rw [allowed_iff h hpos hcap] at hallowed ⊢
    exact hallowed.trans (units_mono h hst)
  · intro hnever s
    have hlate := (denied_iff h hpos hcap t).mp ⟨_, hnever⟩
    have hnone := (acquire_never_iff h n word t).mp hnever
    exact (denied_iff h hpos hcap s).mpr (late_of_waitFor_eq_none h hpos hcap hlate hnone s)
  · intro hall
    -- a named wait would end in an allowance, at the latest when the clock has stopped
    obtain ⟨w, hdenied⟩ := hall t
    by_cases hw : w = .MAX
    · rw [hdenied, hw]
    · have hcovered := covered_of_hint h hpos hcap hdenied hw
      have hlate := (denied_iff h hpos hcap .MAX).mp (hall .MAX)
      omega

end Valid

/-- A drained bucket of ten a second is asked for three: 300 ms. -/
theorem retry_hints_drained :
    (new (Bucket.perSecond 10)).answer (.acquire 3 .zero) ((new (Bucket.perSecond 10)).units .zero) =
        .decision (.denied (.fromMillis 300)) ∧
      HintExact (new (Bucket.perSecond 10)) 3 ((new (Bucket.perSecond 10)).units .zero) .zero
        (.fromMillis 300) :=
  have hdenied : (new (Bucket.perSecond 10)).answer (.acquire 3 .zero)
      ((new (Bucket.perSecond 10)).units .zero) = .decision (.denied (.fromMillis 300)) := by
    decide +kernel
  ⟨hdenied, (retry_hints (Bucket.perSecond_valid (by decide)) _ (by decide) (by decide +kernel)).2.1
    _ _ hdenied (by decide +kernel)⟩

end BetterBucket.Core

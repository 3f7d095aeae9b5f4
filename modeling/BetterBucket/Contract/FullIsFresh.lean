import BetterBucket.Engine.Bucket
import BetterBucket.Protocol.Decisions

/-!
# A full bucket is a fresh one

Time spent full is forgotten: words that a reading cannot tell apart give the same answers to every
sequence of calls from that reading on.
-/

namespace BetterBucket.Core

open CasLoop MachineWords

variable {config : BucketConfig} {t now : Duration} {v v' word : ℕ} {c : Call}

/-- A call sees of the word no more than how far it is past the word of a full bucket. -/
theorem program_congr {self : Core} (hreading : c.reading = some now)
    (hsame : self.base v now = self.base v' now) :
    ((self.program c).exec v).1 = ((self.program c).exec v').1 ∧
      (((self.program c).exec v).2 = ((self.program c).exec v').2 ∨
        ((self.program c).exec v).2 = v ∧ ((self.program c).exec v').2 = v') := by
  unfold base at hsame
  -- each loop reads the word through the same maximum
  cases c with
  | acquire n moment =>
    cases hreading
    rw [program, acquire]
    split_ifs
    · exact ⟨rfl, .inr ⟨rfl, rfl⟩⟩
    · exact ⟨rfl, .inr ⟨rfl, rfl⟩⟩
    · apply Program.exec_loop_congr
      simp only [hsame]
  | acquireUpTo n moment =>
    cases hreading
    rw [program, acquireUpTo]
    split_ifs
    · exact ⟨rfl, .inr ⟨rfl, rfl⟩⟩
    · apply Program.exec_loop_congr
      simp only [hsame]
  | available moment =>
    cases hreading
    rw [program, available]
    split_ifs
    · exact ⟨rfl, .inr ⟨rfl, rfl⟩⟩
    · apply Program.exec_loop_congr
      simp only [availableIn, hsame]
  | timeUntil n moment =>
    cases hreading
    rw [program, timeUntil]
    split_ifs
    · exact ⟨rfl, .inr ⟨rfl, rfl⟩⟩
    · exact ⟨rfl, .inr ⟨rfl, rfl⟩⟩
    · apply Program.exec_loop_congr
      simp only [hsame]
  | reserve n maxWait moment =>
    cases hreading
    rw [program, reserve]
    split_ifs
    · exact ⟨rfl, .inr ⟨rfl, rfl⟩⟩
    · exact ⟨rfl, .inr ⟨rfl, rfl⟩⟩
    · apply Program.exec_loop_congr
      simp only [hsame]
  | refund n => cases hreading
  | reset moment => exact ⟨rfl, .inl rfl⟩

/-- What one reading cannot tell apart, no later one can. -/
theorem base_eq_later (h : config.Valid) (hle : t ≤ now)
    (hsame : (new config).base v t = (new config).base v' t) :
    (new config).base v now = (new config).base v' now := by
  have hunits := units_mono h hle
  unfold base at hsame ⊢
  omega

/-- Words that `t` cannot tell apart answer every call from `t` on alike, and stay so. -/
theorem exec_alike (h : config.Valid) (hlater : ∀ now ∈ c.reading, t ≤ now)
    (hsame : (new config).base v t = (new config).base v' t) :
    (((new config).program c).exec v).1 = (((new config).program c).exec v').1 ∧
      (new config).base (((new config).program c).exec v).2 t =
        (new config).base (((new config).program c).exec v').2 t := by
  cases hreading : c.reading with
  | some now =>
    have hcongr := program_congr hreading (base_eq_later h (hlater now hreading) hsame)
    refine ⟨hcongr.1, ?_⟩
    rcases hcongr.2 with heq | ⟨hv, hv'⟩
    · rw [heq]
    · rw [hv, hv', hsame]
  | none =>
    cases c with
    | refund n =>
      constructor
      · rcases Nat.eq_zero_or_pos (min n config.capacity) with hzero | hpos
        · simp only [program, refund, new_capacity, hzero, if_true, Program.map, Program.exec]
        · rw [refund_exec v (by rwa [new_capacity]), refund_exec v' (by rwa [new_capacity])]
      · -- a refund moves both words back as far; those of a full bucket stay full
        rw [refund_word, refund_word]
        unfold base at hsame ⊢
        omega
    | _ => cases hreading

theorem availableIn_eq_capacity_iff (h : config.Valid) (word : ℕ) (t : Duration) :
    (new config).availableIn word t = config.capacity ↔ word + (new config).burst ≤ (new config).units t := by
  have hburst := burst_lt_units h t
  have hle := tokensIn_le h ((new config).credit word t)
  have hcost : (new config).burst ≤ (new config).credit word t ↔ _ := cost_le_iff h le_rfl _
  rw [availableIn_eq]
  calc (new config).tokensIn ((new config).credit word t) = config.capacity
      ↔ config.capacity ≤ (new config).tokensIn ((new config).credit word t) :=
        ⟨fun heq => heq.ge, fun hge => le_antisymm hle hge⟩
    _ ↔ (new config).burst ≤ (new config).credit word t := hcost.symm
    _ ↔ word + (new config).burst ≤ (new config).units t := by
        have hpos := burst_pos h
        unfold credit base
        omega

/-- A bucket shows its capacity at a reading if and only if, from that reading on, no sequence of calls
tells it from one that has just been reset. -/
theorem full_iff_fresh (h : config.Valid) (word : ℕ) (t : Duration) :
    (new config).answer (.available t) word = .count config.capacity ↔
      ∀ cs : List Call, (∀ c ∈ cs, ∀ now ∈ c.reading, t ≤ now) →
        (execAll (new config).program word cs).1 =
          (execAll (new config).program ((new config).after (.reset t) word) cs).1 := by
  have hburst := burst_lt_units h t
  have hreset : (new config).after (.reset t) word = (new config).units t - (new config).burst := rfl
  have hshows : ∀ v, (new config).answer (.available t) v = .count ((new config).availableIn v t) :=
    fun v => by rw [answer, available_exec h]
  constructor
  · intro hfull cs hlater
    rw [hshows, Answer.count.injEq, availableIn_eq_capacity_iff h] at hfull
    apply execAll_related fun v v' => (new config).base v t = (new config).base v' t
    · exact fun c hc v v' hsame => exec_alike h (hlater c hc) hsame
    · rw [hreset]
      unfold base
      omega
  · intro hfresh
    -- the one call that tells them apart is the snapshot itself
    have hone := hfresh [.available t] (by
      intro c hc now hnow
      rw [List.mem_singleton.mp hc] at hnow
      cases hnow
      exact Nat.le_refl _)
    have hsame : (new config).answer (.available t) word =
        (new config).answer (.available t) ((new config).after (.reset t) word) := by
      simp only [execAll, List.cons.injEq, Prod.mk.injEq, true_and, and_true] at hone
      rw [answer, answer, hone]
    rw [hsame, hshows, Answer.count.injEq, availableIn_eq_capacity_iff h, hreset]
    omega

/-- Three tokens at a second, whatever was done a second before. -/
theorem full_iff_fresh_perSecond :
    (new (Bucket.perSecond 3)).answer (.available (.fromSecs 1)) (Bucket.start (Bucket.perSecond 3)) = .count 3 ∧
      (execAll (new (Bucket.perSecond 3)).program (Bucket.start (Bucket.perSecond 3))
          [.acquireUpTo 5 (.fromSecs 1), .refund 2, .available (.fromSecs 2)]).1 =
        (execAll (new (Bucket.perSecond 3)).program
          ((new (Bucket.perSecond 3)).after (.reset (.fromSecs 1)) (Bucket.start (Bucket.perSecond 3)))
          [.acquireUpTo 5 (.fromSecs 1), .refund 2, .available (.fromSecs 2)]).1 := by
  have hshows : (new (Bucket.perSecond 3)).answer (.available (.fromSecs 1))
      (Bucket.start (Bucket.perSecond 3)) = .count 3 := by decide +kernel
  exact ⟨hshows, (full_iff_fresh (Bucket.perSecond_valid (by decide)) _ _).mp hshows _ (by decide +kernel)⟩

end BetterBucket.Core

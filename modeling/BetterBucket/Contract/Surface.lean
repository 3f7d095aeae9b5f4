import BetterBucket.Engine.Bucket
import BetterBucket.Foundation.Progress
import BetterBucket.Protocol.Decisions

/-!
# What a consumer sees

The bucket a degenerate Tier-1 request gives, and the `TokenBucket` trait's provided wait against
the bucket's own.
-/

namespace BetterBucket

open CasLoop

/-- The answer of a bucket that never holds a token. -/
def Call.Nothing : Call → Answer → Prop
  | .acquire n _, a => n = 0 ∨ a = .decision (.denied .MAX)
  | .acquireUpTo _ _, a => a = .count 0
  | .available _, a => a = .count 0
  | .timeUntil n _, a => n = 0 ∨ a = .wait none
  | .reserve n _ _, a => n = 0 ∨ a = .wait none
  | .refund _, _ => True
  | .reset _, _ => True

namespace Core

theorem degenerate_nothing {self : Core} (hcap : self.capacity = 0) (c : Call) :
    (self.program c).Always fun exit => c.Nothing exit.value := by
  -- nothing is there to take, so a request for something is over the capacity
  cases c with
  | acquire n now =>
    rw [program, Program.always_map, acquire, hcap]
    split_ifs with hzero hmore
    · exact .inl hzero
    · exact .inr rfl
    · omega
  | acquireUpTo n now =>
    rw [program, Program.always_map, acquireUpTo, hcap]
    split_ifs with hzero
    · rfl
    · intro v
      simp only [Nat.min_zero, if_true]
      rfl
  | available now =>
    rw [program, Program.always_map, available, if_pos hcap]
    rfl
  | timeUntil n now =>
    rw [program, Program.always_map, timeUntil, hcap]
    split_ifs with hzero hmore
    · exact .inl hzero
    · exact .inr rfl
    · omega
  | reserve n maxWait now =>
    rw [program, Program.always_map, reserve, hcap]
    split_ifs with hzero hmore
    · exact .inl hzero
    · exact .inr rfl
    · omega
  | refund n =>
    rw [program, Program.always_map, refund, hcap]
    rw [Nat.min_zero, if_pos rfl]
    trivial
  | reset now => trivial

/-- A refill, then a request for one token. -/
def refillAndAsk : List Call := [.reset .zero, .acquire 1 .zero]

/-- A valid configuration grants a token after a reset, whatever the word was. -/
theorem refillAndAsk_allowed {config : BucketConfig} (h : config.Valid) (word : ℕ) :
    (.acquire 1 .zero, ⟨.decision .allowed, .allowed 1⟩) ∈
      (execAll (new config).program word refillAndAsk).1 := by
  have hcap : 1 ≤ config.capacity := (config.valid_iff.mp h).1
  have hreset : (((new config).program (.reset .zero)).exec word).2 =
      (new config).units .zero - (new config).burst := rfl
  have hcost : (new config).cost 1 ≤
      (new config).credit ((new config).units .zero - (new config).burst) .zero := by
    have hle := cost_le_burst h hcap
    have hburst := burst_lt_units h .zero
    unfold credit base
    omega
  have hallowed := acquire_exec h (Nat.zero_lt_one) hcap hcost
  rw [refillAndAsk, execAll, execAll, hreset, hallowed]
  exact List.mem_cons_of_mem _ (List.mem_cons_self ..)

/-- A Tier-1 bucket grants nothing in any run, however it is interleaved, refunded and reset, if and
only if its request was degenerate. -/
theorem deny_all_iff {T : Type*} [DecidableEq T] [Inhabited T] (capacity amount : U32) (period : Duration)
    (initial : U32) (word : ℕ) :
    (capacity.val = 0 ∨ amount.val = 0 ∨ period.isZero) ↔
      ∀ (es : List (Event T Call ℕ (Exit Answer))) (s : State T Call ℕ),
        Run .anyEarlier (new (tier1Config capacity amount period initial)).program (State.start word) es s →
          ∀ c ∈ completions es, c.call.Nothing c.result.value := by
  constructor
  · intro hdegenerate es s hrun c hc
    have hcap : (new (tier1Config capacity amount period initial)).capacity = 0 := by
      rw [tier1Config, if_pos hdegenerate]
      rfl
    exact hrun.returns hc (degenerate_nothing hcap c.call)
  · intro hnothing
    by_contra hproper
    simp only [not_or, Bool.not_eq_true] at hproper
    have hvalid : (tier1Config capacity amount period initial).Valid :=
      tier1Config_valid hproper.1 hproper.2.1 hproper.2.2
    -- one thread refills the bucket and takes a token
    obtain ⟨es, s, hrun, -, -, hresults⟩ := Run.oneByOne
      (new (tier1Config capacity amount period initial)).program (State.start word) (t := (default : T)) rfl refillAndAsk
    have hallowed := refillAndAsk_allowed hvalid word
    rw [State.start_word] at hresults
    rw [← hresults, List.mem_map] at hallowed
    obtain ⟨c, hc, heq⟩ := hallowed
    have hnot := hnothing es s hrun.anyEarlier c hc
    obtain ⟨hcall, hresult⟩ := Prod.mk.inj heq
    rw [hcall, hresult] at hnot
    rcases hnot with hzero | hdenied
    · cases hzero
    · cases hdenied

/-! ## Waits through the trait -/

variable {config : BucketConfig}

theorem tryAcquire_iff (h : config.Valid) (n word : ℕ) (t : Duration) :
    (((new config).tryAcquire n t).exec word).1.value = true ↔
      (new config).waitFor n word t = some .zero := by
  rw [tryAcquire, Program.exec_map, acquire_exec_eq h]
  split
  · rename_i hdue
    exact iff_of_true rfl hdue
  · rename_i hlate
    exact iff_of_false (by simp [Exit.map, Decision.isAllowed]) hlate

/-- The provided body knows no rate, yet never contradicts the wait of the bucket itself: zero exactly
when that is zero and a try succeeds, never only if that is never, and otherwise no shorter. -/
theorem provided_wait_sound (h : config.Valid) (n word : ℕ) (t : Duration) :
    ∃ (k : ℕ) (own : Option Duration), (new config).answer (.available t) word = .count k ∧
      (new config).answer (.timeUntil n t) word = .wait own ∧
      ((((new config).tryAcquire n t).exec word).1.value = true ↔
        providedTimeUntil k config.capacity n = some .zero) ∧
      (own = some .zero ↔ providedTimeUntil k config.capacity n = some .zero) ∧
      (providedTimeUntil k config.capacity n = none → own = none) ∧
      ∀ w, own = some w → w ≠ .MAX ∧ ∃ w', providedTimeUntil k config.capacity n = some w' ∧ w ≤ w' := by
  refine ⟨(new config).availableIn word t, (new config).waitFor n word t, ?_, timeUntil_answer .., ?_⟩
  · rw [answer, available_exec h]
  have hmax := waitFor_ne_max h n word t
  have hzero : (new config).waitFor n word t = some .zero ↔ n ≤ (new config).availableIn word t :=
    waitFor_eq_zero_iff_le h
  rw [tryAcquire_iff h]
  by_cases hthere : n ≤ (new config).availableIn word t
  · have hown := hzero.mpr hthere
    rw [hown, providedTimeUntil, if_pos (.inr hthere)]
    refine ⟨Iff.rfl, Iff.rfl, by simp, fun w hw => ?_⟩
    cases hw
    exact ⟨by decide, .zero, rfl, Nat.le_refl _⟩
  have hown : (new config).waitFor n word t ≠ some .zero := fun hown => hthere (hzero.mp hown)
  have hshort : ¬(n = 0 ∨ (new config).availableIn word t ≥ n) := by omega
  rw [providedTimeUntil, if_neg hshort]
  by_cases hcap : n ≤ config.capacity
  · rw [if_neg (not_lt.mpr hcap)]
    have hfar : (some Duration.MAX : Option Duration) ≠ some .zero := by decide
    refine ⟨iff_of_false hown hfar, iff_of_false hown hfar, by simp, fun w hw => ?_⟩
    exact ⟨fun heq => hmax (heq ▸ hw), .MAX, rfl, w.asNanos_le_max⟩
  · -- more than a full bucket is never there, and both say so
    have hnever : (new config).waitFor n word t = none := waitFor_of_lt (not_le.mp hcap) word t
    rw [if_pos (not_le.mp hcap), hnever]
    have hnone : (none : Option Duration) ≠ some .zero := by simp
    exact ⟨iff_of_false hnone hnone, iff_of_false hnone hnone, fun _ => rfl, by simp⟩

/-- The word of an emptied bucket of three tokens a second. -/
def emptied : ℕ := (new (Bucket.perSecond 3)).after (.acquire 3 .zero) (Bucket.start (Bucket.perSecond 3))

/-- Two tokens are there after 667 ms; all the trait can say is that they are not there now. -/
theorem provided_wait_sound_perSecond :
    (new (Bucket.perSecond 3)).answer (.timeUntil 2 .zero) emptied = .wait (some (.fromMillis 667)) ∧
      ∃ k, (new (Bucket.perSecond 3)).answer (.available .zero) emptied = .count k ∧
        ((((new (Bucket.perSecond 3)).tryAcquire 2 .zero).exec emptied).1.value = true ↔
          providedTimeUntil k (Bucket.perSecond 3).capacity 2 = some .zero) ∧
        ∃ w', providedTimeUntil k (Bucket.perSecond 3).capacity 2 = some w' ∧ .fromMillis 667 ≤ w' := by
  have hwait : (new (Bucket.perSecond 3)).answer (.timeUntil 2 .zero) emptied =
      .wait (some (.fromMillis 667)) := by decide +kernel
  obtain ⟨k, own, hk, hown, htry, -, -, hbound⟩ := provided_wait_sound
    (Bucket.perSecond_valid (by decide : (3 : U32).val ≠ 0)) 2 emptied .zero
  rw [hwait, Answer.wait.injEq] at hown
  exact ⟨hwait, k, hk, htry, (hbound _ hown.symm).2⟩

end Core

end BetterBucket

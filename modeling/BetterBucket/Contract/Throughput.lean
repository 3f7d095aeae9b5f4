import BetterBucket.Contract.Queueing
import BetterBucket.Contract.RealTimeOrder

/-!
# Refill that callers keep asking for

A bucket loses refill only where it stands full.  While it cannot have filled up between one call
that found tokens missing and the next take, every token of the exact refill is handed out.
-/

namespace BetterBucket.Core

open CasLoop MachineWords

variable {T : Type*} {config : BucketConfig} {m n since : ℕ} {w : Entry T}

/-- A bucket with no more than `m` tokens at `since` is not filled up before `now`. -/
def Unfilled (config : BucketConfig) (m since now : ℕ) : Prop :=
  m ≤ config.capacity ∧ now ≤ since ∨
    m + config.accrued (max 0 ((now : ℚ) - since) + 4) + resolution < config.capacity

instance (config : BucketConfig) (m since now : ℕ) : Decidable (Unfilled config m since now) :=
  inferInstanceAs (Decidable (_ ∨ _))

theorem Unfilled.le_capacity {now : ℕ} (h : Unfilled config m since now) : m ≤ config.capacity := by
  rcases h with hle | hlt
  · exact hle.1
  · have haccrued := config.accrued_nonneg (by positivity : 0 ≤ max 0 ((now : ℚ) - since) + 4)
    have hresolution := resolution_nonneg
    have hm : (m : ℚ) ≤ config.capacity := by linarith
    exact_mod_cast hm

/-- The write cannot have found a full bucket: not since it was created, or not since a call that found
tokens missing had returned. -/
def Busy (config : BucketConfig) (t0 : Duration) (es : List (Event T Call ℕ (Exit Answer)))
    (w : Entry T) : Prop :=
  Unfilled config config.initial t0.asNanos w.starts ∨
    ∃ c ∈ completions es, c.returned < w.invoked ∧
      ∃ m ∈ c.call.lacks c.result.value, Unfilled config m c.call.readingNanos w.starts

instance (config : BucketConfig) (t0 : Duration) (es : List (Event T Call ℕ (Exit Answer))) (w : Entry T) :
    Decidable (Busy config t0 es w) :=
  inferInstanceAs (Decidable (_ ∨ _))

/-- A write into a bucket that is not full charges the word it finds. -/
theorem charged_of_unfilled (h : config.Valid) (hs : 0 ≤ (new config).unitShift)
    (hroom : (new config).clock.read since ≤ w.before + m * (new config).grain)
    (hunfilled : Unfilled config m since w.starts) : (new config).charged w = w.before := by
  have hburst := burst_exact h hs
  have hcap := hunfilled.le_capacity
  apply max_eq_left
  rcases hunfilled with ⟨-, hearlier⟩ | hlt
  · have hread := (new config).clock.read_mono hearlier
    have hmul := Nat.mul_le_mul_right (new config).grain hcap
    omega
  · -- were it full, the clock would have gained the missing tokens
    by_contra hfull
    rw [not_le] at hfull
    have hunits : config.capacity * (new config).grain + (new config).clock.read since ≤
        (new config).cost m + (new config).clock.read w.starts := by
      rw [cost_exact h hs hcap]
      omega
    have hunitsQ : (config.capacity : ℚ) * (new config).grain + (new config).clock.read since ≤
        (new config).cost m + (new config).clock.read w.starts := by exact_mod_cast hunits
    have hprice : (config.capacity : ℚ) * 2 ^ (new config).unitShift ≤ (new config).cost m +
        ((new config).clock.read w.starts - (new config).clock.read since) := by
      rw [zpow_of_exact hs]
      linarith
    have htokens := tokens_le_of_read h hcap hprice
    linarith

variable [DecidableEq T] {es : List (Event T Call ℕ (Exit Answer))} {s : State T Call ℕ} {t0 : Duration}
  {c : Completion T Call (Exit Answer)}

omit [DecidableEq T] in
/-- The clock at a call's reading is behind what a later word and the tokens the call missed make. -/
theorem read_lt_of_lacks (h : config.Valid) (hs : 0 ≤ (new config).unitShift) {word word' : ℕ}
    (hrefund : c.call.isRefund = false)
    (hresult : (((new config).program c.call).exec word).1 = c.result)
    (hlacks : c.call.lacks c.result.value = some n) (hcap : n ≤ config.capacity)
    (hword : (new config).after c.call word ≤ word') :
    (new config).clock.read c.call.readingNanos < word' + n * (new config).grain := by
  obtain ⟨t, ht⟩ := Call.reading_of_not_refund hrefund
  have hnanos : c.call.readingNanos = t.asNanos := by simp [Call.readingNanos, ht]
  have hanswer : (new config).answer c.call word = c.result.value := by rw [answer, hresult]
  rw [← hanswer] at hlacks
  have hshort := (lacks_sound h ht hlacks hword le_rfl hcap).2
  rw [units_eq h, cost_exact h hs hcap] at hshort
  rw [hnanos]
  exact hshort

/-- A busy write takes its tokens from the word it finds. -/
theorem charged_of_busy (h : config.Valid) (hs : 0 ≤ (new config).unitShift)
    (hrun : Run .anyEarlier (new config).program (State.start (start config t0)) es s)
    (hcalls : ∀ c ∈ calls es, c.isRefund = false ∧ c.isReset = false) {pre post : List (Entry T)}
    (hsplit : writes es = pre ++ w :: post) (hbusy : Busy config t0 es w) :
    (new config).charged w = w.before := by
  have hlog : ∀ w ∈ pre, w.call.isRefund = false ∧ w.call.isReset = false := fun w hw =>
    hcalls w.call (hrun.write_invoked (hsplit ▸ List.mem_append_left _ hw))
  rcases hbusy with hunfilled | ⟨c, hc, horder, m, hlacks, hunfilled⟩
  · -- since the bucket was created the word only moved forward
    obtain ⟨mid, hpre, hbefore, -⟩ := (hsplit ▸ hrun.linked).split
    have hword := linked_le h hpre hlog
    rw [State.start_word, ← hbefore] at hword
    have hstart := units_le_start_add config t0
    rw [units_eq h, cost_exact h hs config.initial_le] at hstart
    exact charged_of_unfilled h hs (by omega) hunfilled
  · -- from the word that call left on, the tokens it missed are still missing
    obtain ⟨word, ws, hresult, hlinked, hwithin⟩ := hrun.before_write hc hsplit horder
    have hword := linked_le h hlinked fun w hw => hlog w (hwithin hw)
    have hrefund := (hcalls _ (hrun.completed_invoked hc)).1
    have hshort := read_lt_of_lacks h hs hrefund hresult hlacks hunfilled.le_capacity hword
    exact charged_of_unfilled h hs hshort.le hunfilled

/-- While every write is busy the word counts the tokens taken. -/
theorem word_eq_of_busy (h : config.Valid) (hs : 0 ≤ (new config).unitShift)
    (hrun : Run .anyEarlier (new config).program (State.start (start config t0)) es s)
    (hcalls : ∀ c ∈ calls es, c.isRefund = false ∧ c.isReset = false)
    (hbusy : ∀ w ∈ writes es, Busy config t0 es w) :
    s.word = start config t0 + taken (writes es) * (new config).grain := by
  refine hrun.linked.invariant
    (fun ws word => word = start config t0 + taken ws * (new config).grain) (by simp) ?_
  intro pre (w : Entry T) post hsplit hinv hwrite
  have hmem : w ∈ writes es := by simp [hsplit]
  have hcall := hcalls w.call (hrun.write_invoked hmem)
  have hgrant := grant_of_call h hwrite hcall.1 hcall.2
  have hcharged := charged_of_busy h hs hrun hcalls hsplit (hbusy w hmem)
  rw [hgrant.after_eq, hcharged, hinv, cost_exact h hs hgrant.taken_le, taken_append, taken_cons,
    taken_nil]
  ring

/-- While the bucket is kept from filling up it hands out all its refill: once a call is short of `n`
tokens, what was taken and these `n` exceed the initial tokens and every whole token accrued at the
exact rate, in any order of steps and at any readings. -/
theorem rate_delivered (h : config.Valid)
    (hexact : 10 * config.refillAmount ≤ 43 * config.refillPeriod.asNanos)
    (hrun : Run .anyEarlier (new config).program (State.start (start config t0)) es s)
    (hcalls : ∀ c ∈ calls es, c.isRefund = false ∧ c.isReset = false)
    (hbusy : ∀ w ∈ writes es, Busy config t0 es w) (hc : c ∈ completions es)
    (hlacks : c.call.lacks c.result.value = some n) (hcap : n ≤ config.capacity)
    (hlater : t0.asNanos ≤ c.call.readingNanos)
    (hrange : (new config).clock.InRange c.call.readingNanos) :
    config.initial + ⌊config.accrued ((c.call.readingNanos : ℚ) - t0.asNanos)⌋₊ <
      taken (writes es) + n := by
  have hs := (unitChoice h).nonneg_iff.mpr hexact
  -- the word at the end is still short of the `n` tokens
  obtain ⟨word, ws, hresult, hlinked, hwithin⟩ := hrun.after_call hc
  have hword := linked_le h hlinked fun w hw => hcalls w.call (hrun.write_invoked (hwithin hw))
  have hrefund := (hcalls _ (hrun.completed_invoked hc)).1
  have hshort := read_lt_of_lacks h hs hrefund hresult hlacks hcap hword
  rw [word_eq_of_busy h hs hrun hcalls hbusy] at hshort
  -- it counts what was taken from a word all initial tokens behind the clock at `t0`
  have hspan : (0 : ℚ) ≤ (c.call.readingNanos : ℚ) - t0.asNanos := by
    rw [sub_nonneg]
    exact_mod_cast hlater
  have hgain := read_add_tokens_le h hs hrange hlater (Nat.floor_le (config.accrued_nonneg hspan))
  have hstart : start config t0 + config.initial * (new config).grain = (new config).clock.read t0.asNanos := by
    have hbelow := (cost_le_burst h config.initial_le).trans (burst_lt_units h t0).le
    rw [start, min_eq_left config.initial_le, ← cost_exact h hs config.initial_le,
      Nat.sub_add_cancel hbelow, units_eq h]
  have hgrain : (config.initial + ⌊config.accrued ((c.call.readingNanos : ℚ) - t0.asNanos)⌋₊) *
      (new config).grain < (taken (writes es) + n) * (new config).grain := by
    rw [Nat.add_mul, Nat.add_mul]
    omega
  exact Nat.lt_of_mul_lt_mul_right hgrain

/-- A burst that falls one short; then a take at 400 ms makes another thread's exchange fail, which finds
half a token at 500 ms, and at one second there are two. -/
def busyDrill : List (Event ℕ Call ℕ (Exit Answer)) × State ℕ Call ℕ :=
  State.play (new (Bucket.perSecond 3)).program (State.start (start (Bucket.perSecond 3) .zero))
    [.call 0 (.acquireUpTo 4 .zero), .advance 0, .advance 0, .call 0 (.acquireUpTo 3 (.fromMillis 500)),
      .call 1 (.acquire 1 (.fromMillis 400)), .advance 0, .advance 1, .advance 1, .advance 0, .advance 0,
      .call 1 (.acquireUpTo 3 (.fromSecs 1)), .advance 1, .advance 1]

/-- The three initial tokens and the three of the second are taken. -/
theorem rate_delivered_busyDrill : taken (writes busyDrill.1) = 6 ∧
    3 + ⌊(Bucket.perSecond 3).accrued (((10 ^ 9 : ℕ) : ℚ) - (0 : ℕ))⌋₊ < 6 + 1 := by
  have hrun : Run .current (new (Bucket.perSecond 3)).program
      (State.start (start (Bucket.perSecond 3) .zero)) busyDrill.1 busyDrill.2 := State.play_run _ _ _
  have htaken : taken (writes busyDrill.1) = 6 := by decide +kernel
  obtain ⟨c, hc, hreading, hlacks⟩ : ∃ c ∈ completions busyDrill.1,
      c.call.readingNanos = 10 ^ 9 ∧ c.call.lacks c.result.value = some 1 := by decide +kernel
  have hdelivered := rate_delivered (Bucket.perSecond_valid (by decide)) (by decide)
    hrun.anyEarlier (by decide +kernel) (by decide +kernel) hc hlacks (by decide)
    (Nat.zero_le _) (by rw [hreading]; exact ⟨by decide +kernel, by decide +kernel⟩)
  rw [htaken, hreading] at hdelivered
  exact ⟨htaken, hdelivered⟩

end BetterBucket.Core

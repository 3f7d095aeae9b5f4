import BetterBucket.Engine.Bucket
import BetterBucket.Foundation.Schedule
import BetterBucket.Protocol.Ledger

/-!
# Conservation at a frozen reading

When every call carries the reading the bucket was created at, the word is an exact account: the
full amount, less the initial tokens, plus whatever callers hold.  Nothing clamps it, because the
tokens all callers hold together are never negative (`Conserved.held_le`).
-/

namespace BetterBucket

open CasLoop BetterBucket.Core MachineWords

variable {T : Type*} [DecidableEq T] {loads : Loads}

/-- Tokens a caller holds by this log: what it took less what it gave back. -/
def held (capacity : ℕ) (u : T) (ws : List (Entry T)) : ℤ :=
  net capacity (ws.filter fun w => w.thread = u)

def refundCall? : Event T Call ℕ (Exit Answer) → Option (T × ℕ)
  | .invoke u (.refund m) => some (u, m)
  | _ => none

/-- Nobody calls `refund` with more than the capacity, or more than it holds at that moment. -/
def RefundsHeld (capacity : ℕ) (es : List (Event T Call ℕ (Exit Answer))) : Prop :=
  ∀ k < es.length, ∀ r ∈ es[k]?.bind refundCall?,
    r.2 ≤ capacity ∧ (r.2 : ℤ) ≤ held capacity r.1 (writes (es.take k))

instance (capacity : ℕ) (es : List (Event T Call ℕ (Exit Answer))) :
    Decidable (RefundsHeld capacity es) :=
  inferInstanceAs (Decidable (∀ k < es.length, ∀ r ∈ es[k]?.bind refundCall?, _))

theorem held_snoc (capacity : ℕ) (u : T) (ws : List (Entry T)) (w : Entry T) :
    held capacity u (ws ++ [w]) = held capacity u ws + if w.thread = u then net capacity [w] else 0 := by
  rw [held, List.filter_append, net_append, List.filter_singleton, held]
  by_cases hu : w.thread = u <;> simp [hu]

theorem sum_held_snoc (capacity : ℕ) (S : Finset T) (ws : List (Entry T)) (w : Entry T) :
    ∑ u ∈ S, held capacity u (ws ++ [w]) =
      ∑ u ∈ S, held capacity u ws + if w.thread ∈ S then net capacity [w] else 0 := by
  simp only [held_snoc, Finset.sum_add_distrib, Finset.sum_ite_eq]

section RefundsHeld

variable {capacity : ℕ} {es : List (Event T Call ℕ (Exit Answer))} {e : Event T Call ℕ (Exit Answer)}

theorem RefundsHeld.of_snoc (h : RefundsHeld capacity (es ++ [e])) : RefundsHeld capacity es := by
  intro k hk r hr
  have hentry := h k (by simp; omega) r
  rw [List.getElem?_append_left hk, List.take_append_of_le_length hk.le] at hentry
  exact hentry hr

theorem RefundsHeld.last {u : T} {m : ℕ} (h : RefundsHeld capacity (es ++ [.invoke u (.refund m)])) :
    m ≤ capacity ∧ (m : ℤ) ≤ held capacity u (writes es) := by
  have hentry := h es.length (by simp) (u, m) (by simp [refundCall?])
  rwa [List.take_left] at hentry

end RefundsHeld

structure Conserved (config : BucketConfig) (t : Duration) (es : List (Event T Call ℕ (Exit Answer)))
    (s : State T Call ℕ) : Prop where
  word_eq : (s.word : ℤ) + config.initial * (new config).grain =
    (new config).units t + net config.capacity (writes es) * (new config).grain
  held_le : ∀ S : Finset T,
    ∑ u ∈ S, held config.capacity u (writes es) ≤ net config.capacity (writes es)
  pending : ∀ u m, (s.threads u).call? = some (.refund m) →
    m ≤ config.capacity ∧ (m : ℤ) ≤ held config.capacity u (writes es)

namespace Conserved

variable {config : BucketConfig} {t : Duration} {es : List (Event T Call ℕ (Exit Answer))}
  {e : Event T Call ℕ (Exit Answer)} {s s' : State T Call ℕ} {w : Entry T}

theorem initial_mul_le (h : config.Valid) (hs : 0 ≤ (new config).unitShift) :
    config.initial * (new config).grain ≤ (new config).burst := by
  rw [burst_exact h hs]
  exact Nat.mul_le_mul_right _ config.initial_le

theorem start (h : config.Valid) (hs : 0 ≤ (new config).unitShift) (t : Duration) :
    Conserved (T := T) config t [] (State.start (Core.start config t)) := by
  have hcost := cost_exact h hs config.initial_le
  have hburst := burst_lt_units h t
  have hsmall := initial_mul_le h hs
  constructor
  · have hword := units_le_start_add config t
    have : Core.start config t + config.initial * (new config).grain = (new config).units t := by
      rw [Core.start, min_eq_left config.initial_le, hcost]
      omega
    simp only [writes, List.filterMap_nil, net_nil, zero_mul, add_zero, State.start_word]
    exact_mod_cast this
  · simp [writes, held]
  · simp [State.start, Local.call?]

theorem net_nonneg (h : Conserved config t es s) : 0 ≤ net config.capacity (writes es) := by
  simpa using h.held_le ∅

/-- The tokens of a committed refund are among those all callers hold. -/
theorem held_le_net (h : Conserved config t es s) (u : T) :
    held config.capacity u (writes es) ≤ net config.capacity (writes es) := by
  simpa using h.held_le {u}

/-- Nothing callers did put the word more than the initial tokens before the present. -/
theorem units_le_word_add (h : Conserved config t es s) (hvalid : config.Valid)
    (hs : 0 ≤ (new config).unitShift) : (new config).units t ≤ s.word + (new config).burst := by
  have hword := h.word_eq
  have hnet := mul_nonneg h.net_nonneg (Nat.cast_nonneg (new config).grain : (0 : ℤ) ≤ _)
  have hsmall := initial_mul_le hvalid hs
  zify at hsmall ⊢
  linarith

/-- A take adds its price to the word: the clamp at a full bucket does nothing. -/
theorem after_eq_of_grant (h : Conserved config t es s) (hvalid : config.Valid)
    (hs : 0 ≤ (new config).unitShift) (hgrant : (new config).Grant w) (hbefore : w.before = s.word)
    (hreading : ∀ now ∈ w.call.reading, now = t) :
    (w.after : ℤ) = w.before + net config.capacity [w] * (new config).grain := by
  have hcost := cost_exact hvalid hs hgrant.taken_le
  have hsome : w.call.reading = some t := by
    obtain ⟨now, hnow⟩ := Call.reading_of_not_refund hgrant.not_refund
    rw [hnow, hreading now hnow]
  have hcharged : (new config).charged w = w.before := by
    have hfull := h.units_le_word_add hvalid hs
    rw [charged_eq hvalid hsome, base]
    apply max_eq_left
    omega
  rw [net_singleton, hgrant.refunded_eq_zero, hgrant.after_eq, hcharged, hcost]
  push_cast
  ring

/-- A refund of what its caller holds takes its price back: the word does not stop at zero. -/
theorem after_eq_of_refund (h : Conserved config t es s) (hvalid : config.Valid)
    (hs : 0 ≤ (new config).unitShift) (hbefore : w.before = s.word) {n : ℕ}
    (hrefund : w.call = .refund n) (htaken : w.taken = 0) (hcap : n ≤ config.capacity)
    (hheld : (n : ℤ) ≤ held config.capacity w.thread (writes es))
    (hafter : w.after = w.before - (new config).cost (min n config.capacity)) :
    (w.after : ℤ) = w.before + net config.capacity [w] * (new config).grain ∧
      -net config.capacity [w] ≤ held config.capacity w.thread (writes es) := by
  have hnet : net config.capacity [w] = -n := by
    rw [net_singleton, htaken, Entry.refunded, hrefund, Call.refunded, min_eq_left hcap]
    simp
  -- the word is past the price of all that callers hold, this refund included
  have hroom : n * (new config).grain ≤ w.before := by
    have hword := h.word_eq
    have hsmall := initial_mul_le hvalid hs
    have hburst := burst_lt_units hvalid t
    have hprice : (n : ℤ) * (new config).grain ≤ net config.capacity (writes es) * (new config).grain :=
      mul_le_mul_of_nonneg_right (hheld.trans (h.held_le_net _)) (Nat.cast_nonneg _)
    rw [hbefore]
    zify at hsmall hburst ⊢
    linarith
  rw [min_eq_left hcap, cost_exact hvalid hs hcap] at hafter
  rw [hnet, neg_neg, hafter, Nat.cast_sub hroom]
  refine ⟨?_, hheld⟩
  push_cast
  ring

/-- What one committed entry does to the account, exactly. -/
theorem after_eq (h : Conserved config t es s) (hvalid : config.Valid)
    (hs : 0 ≤ (new config).unitShift) (hw : (new config).Logged w) (hbefore : w.before = s.word)
    (hcall : (s.threads w.thread).call? = some w.call) (hreset : w.call.isReset = false)
    (hreading : ∀ now ∈ w.call.reading, now = t) :
    (w.after : ℤ) = w.before + net config.capacity [w] * (new config).grain ∧
      (0 ≤ net config.capacity [w] ∨
        -net config.capacity [w] ≤ held config.capacity w.thread (writes es)) := by
  rcases entry_cases hvalid hw with hgrant | ⟨n, hrefund, htaken, hafter⟩ | ⟨now, hcallReset, -⟩
  · refine ⟨h.after_eq_of_grant hvalid hs hgrant hbefore hreading, .inl ?_⟩
    rw [net_singleton, hgrant.refunded_eq_zero, Nat.cast_zero, sub_zero]
    exact Nat.cast_nonneg _
  · obtain ⟨hcap, hheld⟩ := h.pending w.thread n (hrefund ▸ hcall)
    exact (h.after_eq_of_refund hvalid hs hbefore hrefund htaken hcap hheld hafter).imp_right .inr
  · rw [hcallReset] at hreset
    cases hreset

theorem commit (h : Conserved config t es s) (hvalid : config.Valid)
    (hs : 0 ≤ (new config).unitShift)
    (hstep : Step loads (new config).program s (.commit w) s')
    (hreset : w.call.isReset = false) (hreading : ∀ now ∈ w.call.reading, now = t) :
    Conserved config t (es ++ [.commit w]) s' := by
  obtain ⟨hbefore, hw, hafter⟩ := hstep.linked
  obtain ⟨hcall, hthreads⟩ := hstep.completes rfl
  obtain ⟨hgain, hback⟩ := h.after_eq hvalid hs hw hbefore hcall hreset hreading
  have hword : w.after = s'.word := hafter
  have hwrites : writes (es ++ [.commit w]) = writes es ++ [w] := by
    rw [writes_append]
    rfl
  constructor
  · have hold := h.word_eq
    rw [← hword, hgain, hbefore, hwrites, net_append, add_mul]
    linarith
  · intro S
    rw [hwrites, sum_held_snoc, net_append]
    have hS := h.held_le S
    split
    · linarith
    · rename_i hnot
      -- a refund by a thread outside `S`: `S` and that thread held no more than all
      rcases hback with hpos | hheld
      · linarith
      · have hwith := h.held_le (insert w.thread S)
        rw [Finset.sum_insert hnot] at hwith
        linarith
  · intro u m hu
    rw [hthreads] at hu
    by_cases hut : u = w.thread
    · rw [hut, Function.update_self] at hu
      cases hu
    · rw [Function.update_of_ne hut] at hu
      rw [hwrites, held_snoc, if_neg (Ne.symm hut), add_zero]
      exact h.pending u m hu

theorem quiet (h : Conserved config t es s) (hstep : Step loads (new config).program s e s')
    (he : e.write? = none)
    (hinvoke : ∀ u m, e = .invoke u (.refund m) →
      m ≤ config.capacity ∧ (m : ℤ) ≤ held config.capacity u (writes es)) :
    Conserved config t (es ++ [e]) s' := by
  have hnone : writes [e] = [] := by simp [writes, he]
  have hwrites : writes (es ++ [e]) = writes es := by rw [writes_append, hnone, List.append_nil]
  have hword : s.word = s'.word := by
    have hlinked := hstep.linked
    rwa [hnone] at hlinked
  constructor
  · rw [hwrites, ← hword]
    exact h.word_eq
  · rw [hwrites]
    exact h.held_le
  · intro u m hu
    obtain ⟨v, l, hthreads, hmoves⟩ := hstep.moves
    rw [hthreads] at hu
    rw [hwrites]
    by_cases huv : u = v
    · subst huv
      rw [Function.update_self] at hu
      rcases hmoves _ hu with hold | hnew
      · exact h.pending u m hold
      · exact hinvoke u m hnew
    · rw [Function.update_of_ne huv] at hu
      exact h.pending u m hu

end Conserved

variable {config : BucketConfig} {t : Duration} {es : List (Event T Call ℕ (Exit Answer))}
  {s : State T Call ℕ}

theorem run_conserved (hvalid : config.Valid) (hs : 0 ≤ (new config).unitShift)
    (hrun : Run loads (new config).program (State.start (start config t)) es s)
    (hcalls : ∀ c ∈ calls es, c.isReset = false ∧ ∀ now ∈ c.reading, now = t)
    (hrefunds : RefundsHeld config.capacity es) : Conserved config t es s := by
  induction hrun with
  | nil => exact Conserved.start hvalid hs t
  | @snoc es s' e s'' hrun hstep ih =>
    have hprev := ih (fun c hc => hcalls c (by simp [calls, List.filterMap_append] at hc ⊢; exact .inl hc))
      hrefunds.of_snoc
    cases he : e.write? with
    | none =>
      apply hprev.quiet hstep he
      rintro u m rfl
      exact hrefunds.last
    | some w =>
      obtain rfl := Event.write?_eq_some.mp he
      have hcall := (hrun.snoc hstep).write_invoked (w := w) (by simp [mem_writes])
      obtain ⟨hreset, hreading⟩ := hcalls w.call hcall
      exact hprev.commit hvalid hs hstep hreset hreading

/-- In every reachable state, with `H` the net tokens taken so far, the bucket shows exactly what is
left of the initial tokens: `max 0 (initial - H)`. -/
theorem available_conserved (hvalid : config.Valid)
    (hexact : 10 * config.refillAmount ≤ 43 * config.refillPeriod.asNanos)
    (hrun : Run loads (new config).program (State.start (start config t)) es s)
    (hcalls : ∀ c ∈ calls es, c.isReset = false ∧ ∀ now ∈ c.reading, now = t)
    (hrefunds : RefundsHeld config.capacity es) :
    ((new config).availableIn s.word t : ℤ) =
      max 0 ((config.initial : ℤ) - net config.capacity (writes es)) := by
  have hs := (unitChoice hvalid).nonneg_iff.mpr hexact
  have hconserved := run_conserved hvalid hs hrun hcalls hrefunds
  have hword := hconserved.word_eq
  obtain ⟨H, hH⟩ := Int.eq_ofNat_of_zero_le hconserved.net_nonneg
  rw [hH] at hword ⊢
  norm_cast at hword
  have hsmall := Conserved.initial_mul_le hvalid hs
  have hburst := burst_lt_units hvalid t
  have hbase : max s.word ((new config).units t - (new config).burst) = s.word :=
    max_eq_left (by omega)
  rw [availableIn, hbase, tokensIn_exact hvalid hs]
  -- in debt, or with something left
  rcases le_total config.initial H with hle | hle
  · have hprice : config.initial * (new config).grain ≤ H * (new config).grain := Nat.mul_le_mul_right _ hle
    have hempty : (new config).units t - s.word = 0 := by omega
    rw [hempty, Nat.zero_div, Nat.zero_min, max_eq_left (by omega), Nat.cast_zero]
  · obtain ⟨k, hk⟩ := Nat.exists_eq_add_of_le hle
    rw [hk, Nat.add_mul] at hword
    have hcredit : (new config).units t - s.word = k * (new config).grain := by omega
    have hinitial := config.initial_le
    rw [hcredit, Nat.mul_div_cancel _ (grain_pos _), min_eq_left (by omega), hk]
    omega

/-- Ten tokens at one reading: a reservation of all of them overtakes a take, which is then denied;
five more are reserved ahead of their accrual and eight given back. -/
def frozenDrill : List (Event ℕ Call ℕ (Exit Answer)) × State ℕ Call ℕ :=
  State.play (new (Bucket.perSecond 10)).program (State.start (start (Bucket.perSecond 10) .zero))
    [.call 0 (.acquire 7 .zero), .call 1 (.reserve 10 .MAX .zero), .advance 0, .advance 1, .advance 1,
      .advance 0, .advance 0, .call 1 (.reserve 5 .MAX .zero), .advance 1, .advance 1,
      .call 1 (.refund 8), .advance 1, .advance 1]

theorem available_conserved_frozenDrill :
    net 10 (writes frozenDrill.1) = 7 ∧
      ((new (Bucket.perSecond 10)).availableIn frozenDrill.2.word .zero : ℤ) = max 0 (10 - 7) := by
  have hrun : Run .current (new (Bucket.perSecond 10)).program
      (State.start (start (Bucket.perSecond 10) .zero)) frozenDrill.1 frozenDrill.2 :=
    State.play_run _ _ _
  have hleft := available_conserved ((BucketConfig.valid_iff _).mpr (by decide)) (by decide) hrun
    (by decide +kernel) (by decide +kernel)
  have hnet : net 10 (writes frozenDrill.1) = 7 := by decide +kernel
  have hcap : (Bucket.perSecond 10).capacity = 10 := rfl
  have hinitial : (Bucket.perSecond 10).initial = 10 := rfl
  rw [hcap, hinitial, hnet] at hleft
  exact ⟨hnet, hleft⟩

end BetterBucket

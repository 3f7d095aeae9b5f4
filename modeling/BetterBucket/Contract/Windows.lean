import BetterBucket.Arithmetic.Slack
import BetterBucket.Engine.Bucket
import BetterBucket.Protocol.Ledger
import BetterBucket.Foundation.Schedule

/-!
# No over-grant in any window of readings

A window runs from one take to another in the order of their commits.  Its first take finds the
word no earlier than full at its own reading, every entry after it moves the word by its price, and
its last take leaves the word where the clock will have arrived when the caller acts.
-/

namespace BetterBucket.Core

open CasLoop

variable {T : Type*} {config : BucketConfig}

section Segments

variable {ws : List (Entry T)} {word word' : ℕ} {first last : Entry T}

/-- The last take of a segment is covered at its end. -/
theorem linked_le_read_ends (h : config.Valid) (hlinked : Linked (new config).program word ws word')
    (hlast : ws.getLast? = some last) (htake : last.IsTake) :
    word' ≤ (new config).clock.read last.ends := by
  have hwrite := hlinked.write?_of_mem (List.mem_of_getLast? hlast)
  rw [← hlinked.getLast?_after hlast]
  exact (grant_of_isTake h hwrite htake).covered

/-- From its first take on, a segment starts no earlier than full. -/
theorem linked_starts_add_net_le (h : config.Valid)
    (hlinked : Linked (new config).program word ws word')
    (hcalls : ∀ w ∈ ws, w.call.isReset = false ∧ (w.call.isRefund = true → 0 ≤ (new config).unitShift))
    (hfirst : ws.head? = some first) (htake : first.IsTake) :
    ((new config).clock.read first.starts : ℚ) - (new config).burst +
      net config.capacity ws * 2 ^ (new config).unitShift ≤ word' := by
  -- the first take clamps the word, the rest of the segment only adds to it
  obtain ⟨rest, rfl⟩ := List.head?_eq_some_iff.mp hfirst
  obtain ⟨-, hwrite, hrest⟩ := hlinked
  have hgrant := grant_of_isTake h hwrite htake
  have hgain := linked_add_net_le h hrest fun w hw => hcalls w (List.mem_cons_of_mem _ hw)
  have hcost := tokens_le_cost h hgrant.taken_le
  have hnet : net config.capacity [first] = first.taken := by
    rw [net_singleton, hgrant.refunded_eq_zero, Nat.cast_zero, sub_zero]
  have hbase : ((new config).clock.read first.starts : ℚ) + (new config).cost first.taken ≤
      first.after + (new config).burst := by
    exact_mod_cast hgrant.starts_add_cost_le
  rw [← List.singleton_append, net_append, hnet]
  push_cast
  linarith

end Segments

variable [DecidableEq T]

/-- Between any two takes, and from creation to any take, the net tokens taken stay within the
capacity (the initial tokens) and what accrues up to the instant the last caller acts. -/
theorem windows_never_over_grant (h : config.Valid) (t0 : Duration)
    {es : List (Event T Call ℕ (Exit Answer))} {s : State T Call ℕ}
    (hrun : Run .anyEarlier (new config).program (State.start (start config t0)) es s)
    (hcalls : ∀ c ∈ calls es, c.isReset = false ∧ (c.isRefund = true →
      10 * config.refillAmount ≤ 43 * config.refillPeriod.asNanos)) :
    (∀ mid : List (Entry T), mid <:+: writes es → ∀ first last,
      mid.head? = some first → mid.getLast? = some last → first.IsTake → last.IsTake →
      (net config.capacity mid : ℚ) ≤
        config.capacity + config.accrued (max 0 ((last.ends : ℚ) - first.starts) + 4) + resolution) ∧
    (∀ pre : List (Entry T), pre <+: writes es → ∀ last, pre.getLast? = some last → last.IsTake →
      (net config.capacity pre : ℚ) ≤
        config.initial + config.accrued (max 0 ((last.ends : ℚ) - t0.asNanos) + 4) + resolution) := by
  have hlog : ∀ w ∈ writes es, w.call.isReset = false ∧
      (w.call.isRefund = true → 0 ≤ (new config).unitShift) := by
    intro w hw
    obtain ⟨hreset, hrefund⟩ := hcalls w.call (hrun.write_invoked hw)
    exact ⟨hreset, fun hcall => (unitChoice h).nonneg_iff.mpr (hrefund hcall)⟩
  constructor
  · -- any other stretch starts from a full bucket at the latest
    intro mid hmid first last hfirst hlast htakeFirst htakeLast
    obtain ⟨word, word', hlinked⟩ := hrun.linked.of_infix hmid
    have hstart := linked_starts_add_net_le h hlinked
      (fun w hw => hlog w (hmid.subset hw)) hfirst htakeFirst
    have hend : (word' : ℚ) ≤ (new config).clock.read last.ends := by
      exact_mod_cast linked_le_read_ends h hlinked hlast htakeLast
    apply tokens_le_of_read h le_rfl
    have hburst : (new config).cost config.capacity = (new config).burst := rfl
    rw [hburst]
    linarith
  · -- a beginning of the log starts from the price of the initial tokens
    intro pre hpre last hlast htake
    obtain ⟨post, hsplit⟩ := hpre
    have hlinked := hrun.linked
    rw [← hsplit] at hlinked
    obtain ⟨word', hleft, -⟩ := hlinked.split
    have hgain := linked_add_net_le h hleft fun w hw => hlog w (hsplit ▸ List.mem_append_left _ hw)
    have hend : (word' : ℚ) ≤ (new config).clock.read last.ends := by
      exact_mod_cast linked_le_read_ends h hleft hlast htake
    have hstart : ((new config).clock.read t0.asNanos : ℚ) ≤
        start config t0 + (new config).cost config.initial := by
      rw [← units_eq h]
      exact_mod_cast units_le_start_add config t0
    rw [State.start_word] at hgain
    exact tokens_le_of_read h config.initial_le (by linarith)

/-- Three tokens and three a second: a take of two, then a refund of one overtaking a reservation
of three, which waits for the last of them. -/
def windowDrill : List (Event ℕ Call ℕ (Exit Answer)) :=
  (State.play (new (Bucket.perSecond 3)).program (State.start (start (Bucket.perSecond 3) .zero))
    [.call 0 (.acquire 2 .zero), .advance 0, .advance 0, .call 0 (.refund 1),
      .call 1 (.reserve 3 .MAX .zero), .advance 1, .advance 0, .advance 0, .advance 1,
      .advance 1]).1

/-- Four tokens within the 334 milliseconds the bound gives three and a third of a second for. -/
theorem windows_never_over_grant_windowDrill :
    net 3 (writes windowDrill) = 4 ∧
      (4 : ℚ) ≤ 3 + (Bucket.perSecond 3).accrued (max 0 (334000000 - 0) + 4) + resolution := by
  have hvalid : (Bucket.perSecond 3).Valid := (BucketConfig.valid_iff _).mpr (by decide)
  have hne : writes windowDrill ≠ [] := by decide +kernel
  have hends : ∀ last ∈ (writes windowDrill).getLast?, Entry.ends last = 334000000 := by decide +kernel
  have htake : ∀ last ∈ (writes windowDrill).getLast?, 0 < Entry.taken last := by decide +kernel
  have hnet : net 3 (writes windowDrill) = 4 := by decide +kernel
  obtain ⟨last, hlast⟩ : ∃ last, (writes windowDrill).getLast? = some last :=
    ⟨_, List.getLast?_eq_some_getLast hne⟩
  have hbound := (windows_never_over_grant hvalid .zero (State.play_run _ _ _).anyEarlier
    (by decide +kernel)).2 (writes windowDrill) List.prefix_rfl last hlast (htake last hlast)
  rw [hends last hlast] at hbound
  refine ⟨hnet, ?_⟩
  have hcap : (Bucket.perSecond 3).capacity = 3 := rfl
  have hinitial : (Bucket.perSecond 3).initial = 3 := rfl
  rw [hcap, hinitial, hnet] at hbound
  exact_mod_cast hbound

end BetterBucket.Core

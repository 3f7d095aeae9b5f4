import BetterBucket.Foundation.Tally

/-!
# Counters while calls are on their way out

What was added so far and what the threads still owe make up what the completed calls are due, so a
counter never runs ahead of them and lags by no more than one call of each thread.
-/

namespace CasLoop

variable {T C W R K : Type*} [DecidableEq T] [DecidableEq K] {loads : Loads} {program : C → Program W R}
  {updates : R → List (K × ℕ)} {s s' s'' : Tallied T C W K} {es es' : List (TallyEvent T C W R K)} {word : W}

/-- What completed calls are due to add to a counter. -/
def dueAt (updates : R → List (K × ℕ)) (counter : K) (cs : List (Completion T C R)) : ℕ :=
  (cs.map fun c => amountAt counter (updates c.result)).sum

omit [DecidableEq T] in
theorem dueAt_append (counter : K) (cs cs' : List (Completion T C R)) :
    dueAt updates counter (cs ++ cs') = dueAt updates counter cs + dueAt updates counter cs' := by
  rw [dueAt, List.map_append, List.sum_append]
  rfl

omit [DecidableEq T] in
theorem dueAt_mono {cs cs' : List (Completion T C R)} (h : cs <+: cs') (counter : K) :
    dueAt updates counter cs ≤ dueAt updates counter cs' := by
  obtain ⟨rest, rfl⟩ := h
  rw [dueAt_append]
  exact Nat.le_add_right _ _

theorem TallyRun.append (h : TallyRun loads program updates s es s')
    (h' : TallyRun loads program updates s' es' s'') :
    TallyRun loads program updates s (es ++ es') s'' := by
  induction h' with
  | nil => simpa using h
  | snoc _ hstep ih =>
    rw [← List.append_assoc]
    exact ih.snoc hstep

theorem amountAt_suffix {l l' : List (K × ℕ)} (h : l <:+ l') (counter : K) :
    amountAt counter l ≤ amountAt counter l' := by
  obtain ⟨front, rfl⟩ := h
  simp only [amountAt, List.filter_append, List.map_append, List.sum_append]
  exact Nat.le_add_left _ _

/-- What a thread owes is the rest of what some completed call of its is due. -/
theorem TallyRun.owed_suffix (h : TallyRun loads program updates (.start word) es s) (t : T) :
    s.owed t = [] ∨ ∃ c ∈ completions (accesses es), s.owed t <:+ updates c.result := by
  induction h with
  | nil => exact .inl rfl
  | @snoc es s e s' _ hstep ih =>
    cases hstep with
    | @access e shared hclear hstep =>
      have haccess : accesses (es ++ [.access e]) = accesses es ++ [e] := accesses_append _ _
      have hgrow : completions (accesses es) ⊆ completions (accesses es ++ [e]) := by
        rw [completions_append]
        exact List.subset_append_left _ _
      rw [haccess]
      have hkeep : s.owed t = [] ∨ ∃ c ∈ completions (accesses es ++ [e]), s.owed t <:+ updates c.result := by
        rcases ih with hnone | ⟨c, hmem, hsuffix⟩
        · exact .inl hnone
        · exact .inr ⟨c, hgrow hmem, hsuffix⟩
      show s.owe updates e t = [] ∨ ∃ c ∈ _, s.owe updates e t <:+ _
      cases hc : e.completion? with
      | none =>
        rw [Tallied.owe, hc]
        exact hkeep
      | some c =>
        rw [Tallied.owe, hc]
        by_cases ht : t = c.thread
        · subst ht
          -- the call that just ended owes all of its additions
          refine .inr ⟨c, ?_, by simp⟩
          rw [completions_append]
          exact List.mem_append_right _ (by simp [completions, hc])
        · simp only [Function.update_of_ne ht]
          exact hkeep
    | @add u counter amount rest howed =>
      rw [accesses_add]
      show Function.update s.owed u rest t = [] ∨ ∃ c ∈ _, Function.update s.owed u rest t <:+ _
      by_cases ht : t = u
      · subst ht
        rw [Function.update_self]
        rcases ih with hnone | ⟨c, hmem, hsuffix⟩
        · rw [hnone] at howed
          cases howed
        · -- one addition off the front
          rw [howed] at hsuffix
          exact .inr ⟨c, hmem, (List.suffix_cons _ _).trans hsuffix⟩
      · rw [Function.update_of_ne ht]
        exact ih

variable [Fintype T]

theorem sum_sumAt_thread (counter : K) (as : List (Addition T K)) :
    ∑ t, sumAt counter (as.filter fun a => a.1 = t) = sumAt counter as := by
  induction as with
  | nil => simp [sumAt]
  | cons a as ih =>
    have hsplit : ∀ t, sumAt counter ((a :: as).filter fun b => b.1 = t) =
        (if a.1 = t then sumAt counter [a] else 0) + sumAt counter (as.filter fun b => b.1 = t) := by
      intro t
      rw [List.filter_cons]
      by_cases ht : a.1 = t
      · simp only [ht, decide_true, if_true]
        exact sumAt_append counter [a] _
      · simp [ht]
    have hcons : sumAt counter (a :: as) = sumAt counter [a] + sumAt counter as :=
      sumAt_append counter [a] as
    simp only [hsplit, Finset.sum_add_distrib, ih, hcons, Finset.sum_ite_eq, Finset.mem_univ, if_true]

/-- Additions made and additions owed are the additions due. -/
theorem Settled.made_add_owed (h : Settled updates es s) (counter : K) :
    sumAt counter (additions es) + ∑ t, amountAt counter (s.owed t) =
      dueAt updates counter (completions (accesses es)) := by
  have howed : ∀ t, sumAt counter ((dues updates (completions (accesses es))).filter fun a => a.1 = t) =
      sumAt counter ((additions es).filter fun a => a.1 = t) + amountAt counter (s.owed t) := by
    intro t
    have hone : sumAt counter ((s.owed t).map (Prod.mk t)) = amountAt counter (s.owed t) := by
      simp only [sumAt, amountAt, List.filter_map, List.map_map]
      rfl
    rw [h.owed t, sumAt_append, hone]
  calc sumAt counter (additions es) + ∑ t, amountAt counter (s.owed t)
      = ∑ t, (sumAt counter ((additions es).filter fun a => a.1 = t) + amountAt counter (s.owed t)) := by
        rw [Finset.sum_add_distrib, sum_sumAt_thread]
    _ = ∑ t, sumAt counter ((dues updates (completions (accesses es))).filter fun a => a.1 = t) :=
        Finset.sum_congr rfl fun t _ => (howed t).symm
    _ = dueAt updates counter (completions (accesses es)) := by
        rw [sum_sumAt_thread, sumAt_dues, dueAt]

section Bounds

variable (h : TallyRun loads program updates (.start word) es s) (counter : K)

include h

/-- A counter never shows more than is due. -/
theorem TallyRun.counters_le : s.counters counter ≤ dueAt updates counter (completions (accesses es)) := by
  have hsettled := h.settled
  rw [← hsettled.made_add_owed counter, hsettled.counters counter]
  exact (Nat.mod_le _ _).trans (Nat.le_add_right _ _)

/-- A counter that did not wrap is behind by one call of each thread at most. -/
theorem TallyRun.due_le_counters {bound : ℕ}
    (hbound : ∀ c ∈ completions (accesses es), amountAt counter (updates c.result) ≤ bound)
    (hrange : dueAt updates counter (completions (accesses es)) < 2 ^ 64) :
    dueAt updates counter (completions (accesses es)) ≤ s.counters counter + Fintype.card T * bound := by
  have hsettled := h.settled
  have hmade := hsettled.made_add_owed counter
  have howed : ∑ t, amountAt counter (s.owed t) ≤ Fintype.card T * bound := by
    apply Finset.sum_le_card_nsmul
    intro t _
    rcases h.owed_suffix t with hnone | ⟨c, hc, hsuffix⟩
    · rw [hnone]
      exact Nat.zero_le _
    · exact (amountAt_suffix hsuffix counter).trans (hbound c hc)
  rw [hsettled.counters counter, Nat.mod_eq_of_lt (by omega)]
  omega

/-- A counter read on the way from `before` to `after` shows no more than is due at the end, and no
less than was due at the beginning, one call of each thread apart. -/
theorem TallyRun.read_between {before after : List (TallyEvent T C W R K)} (hbefore : before <+: es)
    (hafter : es <+: after) {bound : ℕ}
    (hbound : ∀ c ∈ completions (accesses es), amountAt counter (updates c.result) ≤ bound)
    (hrange : dueAt updates counter (completions (accesses after)) < 2 ^ 64) :
    s.counters counter ≤ dueAt updates counter (completions (accesses after)) ∧
      dueAt updates counter (completions (accesses before)) ≤ s.counters counter + Fintype.card T * bound := by
  have hgrow : dueAt updates counter (completions (accesses es)) ≤ _ :=
    dueAt_mono ((hafter.filterMap _).filterMap _) counter
  have hstart : dueAt updates counter (completions (accesses before)) ≤ _ :=
    dueAt_mono ((hbefore.filterMap _).filterMap _) counter
  have hlag := h.due_le_counters counter hbound (hgrow.trans_lt hrange)
  exact ⟨(h.counters_le counter).trans hgrow, hstart.trans hlag⟩

end Bounds

end CasLoop

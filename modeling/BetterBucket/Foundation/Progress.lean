import BetterBucket.Foundation.Schedule
import BetterBucket.Foundation.Tally

/-!
# How many steps calls take

Each thread owes at most three steps before its call must end, unless another thread writes or an
exchange fails spuriously: charging every step against that debt bounds the steps of one thread, and
summed over the threads those of the whole machine.
-/

namespace CasLoop

variable {T C W R : Type*}

/-- Steps a thread still takes before the one that ends its call, if nobody else writes and no
exchange fails spuriously. -/
def Local.owes [DecidableEq W] (word : W) : Local C W → ℕ
  | .idle => 3
  | .started _ _ => 2
  | .holding _ _ current _ => if current = word then 0 else 1

theorem Local.owes_le [DecidableEq W] (word : W) (l : Local C W) : l.owes word ≤ 3 := by
  cases l <;> simp only [owes] <;> first | omega | (split <;> omega)

/-- A call that holds the word falls behind by one step when the word is replaced. -/
theorem Local.owes_le_succ [DecidableEq W] (word word' : W) (l : Local C W) :
    l.owes word' ≤ l.owes word + 1 := by
  cases l <;> simp only [owes] <;> first | omega | (split <;> split <;> omega)

/-- An exchange that failed although the word was the one expected. -/
def Event.isSpurious [DecidableEq W] : Event T C W R → Bool
  | .casFail _ _ expected actual => expected = actual
  | _ => false

section Counts

variable [DecidableEq T]

/-- Steps of thread `t`. -/
def stepsOf (t : T) (es : List (Event T C W R)) : ℕ := es.countP fun e => e.thread = t

/-- Calls of thread `t` that completed. -/
def completedBy (t : T) (es : List (Event T C W R)) : ℕ :=
  es.countP fun e => e.completion?.isSome && e.thread = t

/-- Writes of other threads than `t`. -/
def writesByOthers (t : T) (es : List (Event T C W R)) : ℕ :=
  es.countP fun e => e.write?.isSome && e.thread ≠ t

/-- Exchanges of thread `t` that failed spuriously. -/
def spuriousOf [DecidableEq W] (t : T) (es : List (Event T C W R)) : ℕ :=
  es.countP fun e => e.isSpurious && e.thread = t

end Counts

variable [DecidableEq T] {loads : Loads} {program : C → Program W R} {s s' : State T C W}
  {es : List (Event T C W R)} {e : Event T C W R}

theorem Step.threads_of_ne (h : Step loads program s e s') {t : T} (ht : e.thread ≠ t) :
    s'.threads t = s.threads t := by
  cases h <;> exact Function.update_of_ne (Ne.symm ht) _ _

theorem Step.word_eq (h : Step loads program s e s') (hwrite : e.write? = none) : s'.word = s.word := by
  cases h with
  | swap => cases hwrite
  | casOk => cases hwrite
  | _ => rfl

section OneThread

variable [DecidableEq W]

/-- A thread's own step is paid by what it owed less, by its call ending, or by a spurious failure. -/
theorem Step.owes_own (h : Step loads program s e s') :
    1 + (s'.threads e.thread).owes s'.word ≤ (s.threads e.thread).owes s.word +
      4 * (if e.completion?.isSome then 1 else 0) + (if e.isSpurious then 1 else 0) := by
  cases h with
  | invoke hlocal => simp [Event.thread, Event.completion?, Event.isSpurious, Local.owes, hlocal]
  | load hlocal =>
    simp only [Event.thread, Local.owes, hlocal, State.move_threads, Function.update_self]
    split <;> omega
  | @casFail t c i v readAt body next r hlocal =>
    -- it fell behind and catches up, or the exchange failed spuriously
    by_cases hv : v = s.word <;>
      simp [Event.thread, Event.completion?, Event.isSpurious, Local.owes, hlocal, hv]
  -- a call ends
  | _ =>
    simp only [Event.thread, Event.completion?, Local.owes, State.move_threads, Function.update_self,
      Option.isSome_some, if_true]
    omega

/-- What thread `t` is charged for a step, whoever takes it. -/
theorem Step.owes_le (h : Step loads program s e s') (t : T) :
    stepsOf t [e] + (s'.threads t).owes s'.word ≤
      (s.threads t).owes s.word + 4 * completedBy t [e] + writesByOthers t [e] + spuriousOf t [e] := by
  simp only [stepsOf, completedBy, writesByOthers, spuriousOf, List.countP_singleton]
  by_cases ht : e.thread = t
  · subst ht
    simpa using h.owes_own
  · -- the step of another thread costs `t` only if it writes
    rw [h.threads_of_ne ht]
    cases hwrite : e.write? with
    | none => simp [ht, h.word_eq hwrite]
    | some w =>
      have hbehind := (s.threads t).owes_le_succ s.word s'.word
      simp [ht]
      omega

/-- Steps of one thread over a whole run: three, four for each call it completed, and one for each
write by another thread and each exchange of its own that failed spuriously. -/
theorem Run.own_steps_le (h : Run loads program s es s') (t : T) :
    stepsOf t es + (s'.threads t).owes s'.word ≤ 3 + 4 * completedBy t es + writesByOthers t es +
      spuriousOf t es := by
  induction h with
  | nil =>
    have hstart := (s.threads t).owes_le s.word
    simpa [stepsOf, completedBy, writesByOthers, spuriousOf] using hstart
  | snoc _ hstep ih =>
    have hcharge := hstep.owes_le t
    simp only [stepsOf, completedBy, writesByOthers, spuriousOf, List.countP_append] at ih hcharge ⊢
    omega

end OneThread

/-! ## The whole machine -/

section AllThreads

variable [Fintype T]

/-- Every event is some thread's, and only that thread's. -/
theorem sum_countP_thread (p : Event T C W R → Bool) (es : List (Event T C W R)) :
    ∑ t, es.countP (fun e => p e && e.thread = t) = es.countP p := by
  induction es with
  | nil => simp
  | cons e es ih =>
    simp only [List.countP_cons, Finset.sum_add_distrib, ih]
    by_cases hp : p e <;> simp [hp]

omit [Fintype T] in
theorem countP_thread_add (p : Event T C W R → Bool) (t : T) (es : List (Event T C W R)) :
    es.countP (fun e => p e && e.thread ≠ t) + es.countP (fun e => p e && e.thread = t) = es.countP p := by
  induction es with
  | nil => rfl
  | cons e es ih =>
    rw [List.countP_cons, List.countP_cons, List.countP_cons, ← ih]
    by_cases hp : p e <;> by_cases ht : e.thread = t <;> simp [hp, ht] <;> omega

theorem sum_stepsOf (es : List (Event T C W R)) : ∑ t, stepsOf t es = es.length := by
  have hsum := sum_countP_thread (fun _ => true) es
  simpa [stepsOf] using hsum

omit [DecidableEq T] [Fintype T] in
theorem countP_completion (es : List (Event T C W R)) :
    es.countP (fun e => e.completion?.isSome) = (completions es).length := by
  rw [completions, List.length_filterMap_eq_countP]

omit [DecidableEq T] [Fintype T] in
theorem countP_write (es : List (Event T C W R)) :
    es.countP (fun e => e.write?.isSome) = (writes es).length := by
  rw [writes, List.length_filterMap_eq_countP]

theorem sum_completedBy (es : List (Event T C W R)) : ∑ t, completedBy t es = (completions es).length :=
  (sum_countP_thread _ es).trans (countP_completion es)

/-- A write is another's to every thread but one. -/
theorem sum_writesByOthers (es : List (Event T C W R)) :
    ∑ t, writesByOthers t es + (writes es).length = Fintype.card T * (writes es).length := by
  have hsum : ∑ t : T, (writesByOthers t es + es.countP fun e => e.write?.isSome && e.thread = t) =
      ∑ _t : T, (writes es).length :=
    Finset.sum_congr rfl fun t _ => by rw [writesByOthers, countP_thread_add, countP_write]
  rw [Finset.sum_add_distrib, sum_countP_thread, countP_write] at hsum
  rw [hsum, Finset.sum_const, Finset.card_univ, smul_eq_mul]

/-- Steps of all threads over a run: three each, four for each completed call, and for each write one
step of every other thread, besides the exchanges that failed spuriously. -/
theorem Run.steps_le [DecidableEq W] (h : Run loads program s es s') :
    es.length + (writes es).length ≤ 3 * Fintype.card T + 4 * (completions es).length +
      Fintype.card T * (writes es).length + es.countP Event.isSpurious := by
  have hsum : ∑ t, stepsOf t es ≤
      ∑ t, (3 + 4 * completedBy t es + writesByOthers t es + spuriousOf t es) :=
    Finset.sum_le_sum fun t _ => (Nat.le_add_right _ _).trans (h.own_steps_le t)
  have hspurious : ∑ t, spuriousOf t es = es.countP Event.isSpurious := sum_countP_thread _ es
  have hothers := sum_writesByOthers es
  rw [Finset.sum_add_distrib, Finset.sum_add_distrib, Finset.sum_add_distrib, ← Finset.mul_sum,
    sum_stepsOf, sum_completedBy, hspurious, Finset.sum_const, Finset.card_univ, smul_eq_mul] at hsum
  omega

omit [DecidableEq T] [Fintype T] in
theorem writes_length_le (es : List (Event T C W R)) : (writes es).length ≤ (completions es).length := by
  rw [← countP_write, ← countP_completion]
  apply List.countP_mono_left
  intro e _ hwrite
  cases e <;> simp_all [Event.write?, Event.completion?]

/-- The steps it takes `N` threads to complete `k` calls. -/
theorem Run.length_le [DecidableEq W] (h : Run loads program s es s') :
    es.length ≤ 3 * Fintype.card T + (Fintype.card T + 3) * (completions es).length +
      es.countP Event.isSpurious := by
  have hsteps := h.steps_le
  have hwrites := writes_length_le es
  cases hcard : Fintype.card T with
  | zero =>
    -- nobody is there to take a step
    have hempty := Fintype.card_eq_zero_iff.mp hcard
    have hnone : es.length = 0 := by rw [← sum_stepsOf, Finset.univ_eq_empty, Finset.sum_empty]
    omega
  | succ N =>
    have hothers := Nat.mul_le_mul_left N hwrites
    rw [hcard, Nat.add_mul N 1, Nat.one_mul] at hsteps
    calc es.length
        ≤ 3 * (N + 1) + 4 * (completions es).length + N * (writes es).length +
            es.countP Event.isSpurious := by omega
      _ ≤ 3 * (N + 1) + 4 * (completions es).length + N * (completions es).length +
            es.countP Event.isSpurious := by omega
      _ = 3 * (N + 1) + (N + 1 + 3) * (completions es).length + es.countP Event.isSpurious := by ring

end AllThreads

/-! ## Calls run alone -/

/-- An idle thread that runs alone completes a call in at most three steps, as if in one piece. -/
theorem Run.alone (program : C → Program W R) (s : State T C W) {t : T} (hidle : s.threads t = .idle) (c : C) :
    ∃ es s', Run .current program s es s' ∧ s'.threads = s.threads ∧
      s'.word = ((program c).exec s.word).2 ∧
      (completions es).map (fun d => (d.call, d.result)) = [(c, ((program c).exec s.word).1)] ∧
      es.length ≤ 3 := by
  have hback : ∀ l l' : Local C W,
      Function.update (Function.update (Function.update s.threads t l) t l') t .idle = s.threads := by
    intro l l'
    rw [Function.update_idem, Function.update_idem, ← hidle, Function.update_eq_self]
  have hinvoke : Run .current program s [.invoke t c] (s.move t (.started c s.time)) :=
    Run.single (.invoke hidle)
  -- alone, a load returns the word and the exchange after it finds the word unchanged
  cases hprog : program c with
  | ret r =>
    refine ⟨_, _, hinvoke.snoc (.ret (Function.update_self ..) hprog), ?_, rfl, rfl, by simp⟩
    rw [← hback .idle .idle]
    simp
  | swap next r =>
    refine ⟨_, _, hinvoke.snoc (.swap (Function.update_self ..) hprog), ?_, rfl, rfl, by simp⟩
    rw [← hback .idle .idle]
    simp
  | loop body =>
    have hload := hinvoke.snoc (.load (Function.update_self ..) hprog rfl)
    cases hbody : body s.word with
    | done r =>
      refine ⟨_, _, hload.snoc (.done (Function.update_self ..) hprog hbody), hback _ _, ?_, ?_, by simp⟩
      · simp [Program.exec, hbody]
      · rw [Program.exec, hbody]
        rfl
    | cas next r =>
      refine ⟨_, _, hload.snoc (.casOk (Function.update_self ..) hprog hbody rfl), hback _ _, ?_, ?_, by simp⟩
      · simp [Program.exec, hbody]
      · rw [Program.exec, hbody]
        rfl

/-- Calls run one after the other are a run. -/
theorem Run.oneByOne (program : C → Program W R) (s : State T C W) {t : T} (hidle : s.threads t = .idle)
    (cs : List C) : ∃ es s', Run .current program s es s' ∧ s'.threads = s.threads ∧
      s'.word = (execAll program s.word cs).2 ∧
      (completions es).map (fun d => (d.call, d.result)) = (execAll program s.word cs).1 := by
  induction cs generalizing s with
  | nil => exact ⟨[], s, .nil, rfl, rfl, rfl⟩
  | cons c cs ih =>
    obtain ⟨es, s', hrun, hthreads, hword, hresults, -⟩ := Run.alone program s hidle c
    obtain ⟨es', s'', hrest, hthreads', hword', hresults'⟩ := ih s' (by rw [hthreads, hidle])
    refine ⟨es ++ es', s'', hrun.append hrest, hthreads'.trans hthreads, ?_, ?_⟩
    · rw [hword', hword, execAll]
    · rw [completions_append, List.map_append, hresults, hresults', hword, execAll]
      rfl

end CasLoop

import BetterBucket.Foundation.CasLoop

/-!
# Lock-freedom of compare-exchange loops

A compare-exchange that finds another word than the one the call last read was overtaken: some other
thread wrote in between.  The reads of one call are ordered, so distinct failures name distinct
writes.  Steps are positions in the event list.
-/

namespace CasLoop

variable {T C W R : Type*}

/-- The positions at which the call that thread `t` invoked at step `i` lost its exchange to a
changed word (a spurious failure finds the word it expected). -/
def realFailures (t : T) (i : ℕ) (es : List (Event T C W R)) : Set ℕ :=
  {p | ∃ expected actual, es[p]? = some (.casFail t i expected actual) ∧ expected ≠ actual}

/-- A write by a thread other than `t` at position `q`. -/
def OtherWrite (t : T) (es : List (Event T C W R)) (q : ℕ) : Prop :=
  ∃ w, es[q]? = some (.commit w) ∧ w.thread ≠ t

theorem OtherWrite.append {t : T} {es : List (Event T C W R)} {q : ℕ} (h : OtherWrite t es q)
    (es' : List (Event T C W R)) : OtherWrite t (es ++ es') q := by
  obtain ⟨w, hw, hne⟩ := h
  exact ⟨w, by rw [List.getElem?_append_left (List.getElem?_eq_some_iff.mp hw).1, hw], hne⟩

theorem mem_realFailures_snoc {t : T} {i p : ℕ} {es : List (Event T C W R)} {e : Event T C W R} :
    p ∈ realFailures t i (es ++ [e]) ↔ p ∈ realFailures t i es ∨
      p = es.length ∧ ∃ expected actual, e = .casFail t i expected actual ∧ expected ≠ actual := by
  simp only [realFailures, Set.mem_ofPred_eq]
  rcases lt_trichotomy p es.length with hlt | rfl | hgt
  · rw [List.getElem?_append_left hlt]
    simp [hlt.ne]
  · simp
  · rw [List.getElem?_eq_none (by simp; omega), List.getElem?_eq_none (by omega)]
    simp [hgt.ne']

theorem realFailures_snoc_of_ne {t : T} {i : ℕ} {es : List (Event T C W R)} {e : Event T C W R}
    (h : ∀ expected actual, e = .casFail t i expected actual → expected = actual) :
    realFailures t i (es ++ [e]) = realFailures t i es := by
  ext p
  rw [mem_realFailures_snoc, or_iff_left]
  rintro ⟨-, expected, actual, heq, hne⟩
  exact hne (h expected actual heq)

/-- `pick` sends the real failures of a call to distinct writes of other threads during it. -/
def Matches (t : T) (i : ℕ) (es : List (Event T C W R)) (pick : ℕ → ℕ) : Prop :=
  Set.InjOn pick (realFailures t i es) ∧
    ∀ p ∈ realFailures t i es, i < pick p ∧ pick p < p ∧ OtherWrite t es (pick p)

theorem Matches.append_of_eq {t : T} {i : ℕ} {es : List (Event T C W R)} {e : Event T C W R}
    {pick : ℕ → ℕ} (h : Matches t i es pick)
    (heq : realFailures t i (es ++ [e]) = realFailures t i es) : Matches t i (es ++ [e]) pick := by
  refine ⟨heq ▸ h.1, fun p hp => ?_⟩
  obtain ⟨h1, h2, h3⟩ := h.2 p (heq ▸ hp)
  exact ⟨h1, h2, h3.append _⟩

/-- A failure after `readAt` may take a write after `readAt`: earlier failures took earlier ones. -/
theorem Matches.extend {t : T} {i readAt q now : ℕ} {es : List (Event T C W R)}
    {e : Event T C W R} {pick : ℕ → ℕ} (h : Matches t i es pick)
    (hread : ∀ p ∈ realFailures t i es, p ≤ readAt) (hq : readAt < q)
    (hwrite : i < q ∧ q < now ∧ OtherWrite t es q)
    (hnew : ∀ p ∈ realFailures t i (es ++ [e]), p ∈ realFailures t i es ∨ p = now) :
    Matches t i (es ++ [e]) (Function.update pick now q) := by
  have hold : ∀ p ∈ realFailures t i es, Function.update pick now q p = pick p ∧ pick p < q := by
    intro p hp
    have hle := hread p hp
    have hpick := (h.2 p hp).2.1
    exact ⟨Function.update_of_ne (by omega) _ _, by omega⟩
  constructor
  · intro p hp p' hp' heq
    rcases hnew p hp with hmem | rfl <;> rcases hnew p' hp' with hmem' | rfl
    · rw [(hold p hmem).1, (hold p' hmem').1] at heq
      exact h.1 hmem hmem' heq
    · rw [(hold p hmem).1, Function.update_self] at heq
      exact absurd heq (hold p hmem).2.ne
    · rw [(hold p' hmem').1, Function.update_self] at heq
      exact absurd heq (hold p' hmem').2.ne'
    · rfl
  · intro p hp
    rcases hnew p hp with hmem | rfl
    · obtain ⟨h1, h2, h3⟩ := h.2 p hmem
      rw [(hold p hmem).1]
      exact ⟨h1, h2, h3.append _⟩
    · rw [Function.update_self]
      exact ⟨hwrite.1, hwrite.2.1, hwrite.2.2.append _⟩

structure Contention (es : List (Event T C W R)) (s : State T C W) : Prop where
  length : es.length = s.time
  started : ∀ t c i, s.threads t = .started c i → i < s.time ∧ realFailures t i es = ∅
  holding : ∀ t c i v readAt, s.threads t = .holding c i v readAt →
    i < readAt ∧ readAt < s.time ∧ (∀ p ∈ realFailures t i es, p ≤ readAt) ∧
      (v ≠ s.word → ∃ q, readAt < q ∧ OtherWrite t es q)
  later : ∀ t i, ∀ p ∈ realFailures t i es, i < p
  matched : ∀ t i, ∃ pick, Matches t i es pick

namespace Contention

variable {es : List (Event T C W R)} {s : State T C W}

theorem start (w₀ : W) : Contention (R := R) [] (State.start w₀ : State T C W) := by
  constructor <;> simp [State.start, realFailures, Matches]

theorem mem_lt (h : Contention es s) {t : T} {i p : ℕ} (hp : p ∈ realFailures t i es) :
    p < s.time := by
  obtain ⟨_, _, hget, -⟩ := hp
  rw [← h.length]
  exact (List.getElem?_eq_some_iff.mp hget).1

variable [DecidableEq T]

/-- A step of thread `t` that is no real failure.  The word may change only if `t` writes. -/
theorem other (h : Contention es s) {e : Event T C W R} {t : T} {l : Local C W} {s' : State T C W}
    (hthreads : s'.threads = Function.update s.threads t l) (htime : s'.time = s.time + 1)
    (hword : s'.word = s.word ∨ ∃ w, e = .commit w ∧ w.thread = t)
    (hevent : ∀ u i expected actual, e = .casFail u i expected actual → expected = actual)
    (hstarted : ∀ c i, l = .started c i → i = s.time)
    (hholding : ∀ c i v readAt, l = .holding c i v readAt →
      i < s.time ∧ readAt = s.time ∧ (v = s.word ∧ s'.word = s.word)) :
    Contention (es ++ [e]) s' := by
  have hfail : ∀ u i, realFailures u i (es ++ [e]) = realFailures u i es :=
    fun u i => realFailures_snoc_of_ne fun expected actual => hevent u i expected actual
  constructor
  case length => simp [h.length, htime]
  case started =>
    intro u c i hu
    rw [hfail, htime]
    rw [hthreads] at hu
    rcases State.update_eq_cases hu with ⟨-, rfl⟩ | ⟨-, hold⟩
    · obtain rfl := hstarted c i rfl
      -- a fresh invocation number has no failures yet
      refine ⟨Nat.lt_succ_self _, Set.eq_empty_iff_forall_notMem.mpr fun p hp => ?_⟩
      have := h.later u _ p hp
      have := h.mem_lt hp
      omega
    · have := h.started u c i hold
      exact ⟨by omega, this.2⟩
  case holding =>
    intro u c i v readAt hu
    rw [hfail, htime]
    rw [hthreads] at hu
    rcases State.update_eq_cases hu with ⟨-, rfl⟩ | ⟨htu, hold⟩
    · obtain ⟨hi, rfl, hv, hsame⟩ := hholding c i v readAt rfl
      exact ⟨hi, Nat.lt_succ_self _, fun p hp => (h.mem_lt hp).le,
        fun hne => absurd (hv.trans hsame.symm) hne⟩
    · obtain ⟨hi, hlt, hle, hmoved⟩ := h.holding u c i v readAt hold
      refine ⟨hi, by omega, hle, fun hne => ?_⟩
      -- the word this thread read is gone already, or `t` has just replaced it
      rcases hword with hsame | ⟨w, rfl, rfl⟩
      · rw [hsame] at hne
        obtain ⟨q, hq, hother⟩ := hmoved hne
        exact ⟨q, hq, hother.append _⟩
      · exact ⟨es.length, by rw [h.length]; omega, w, by simp, Ne.symm htu⟩
  case later =>
    intro u i p hp
    rw [hfail] at hp
    exact h.later u i p hp
  case matched =>
    intro u i
    obtain ⟨pick, hpick⟩ := h.matched u i
    exact ⟨pick, hpick.append_of_eq (hfail u i)⟩

/-- A lost exchange: the write it lost to is later than the call's last read, hence later than every
write matched to an earlier failure of the call. -/
theorem lost (h : Contention es s) {t : T} {c : C} {i : ℕ} {v : W} {readAt : ℕ}
    (hlocal : s.threads t = .holding c i v readAt) (hne : v ≠ s.word) :
    Contention (es ++ [.casFail (R := R) t i v s.word])
      (s.move t (.holding c i s.word s.time)) := by
  obtain ⟨hi, hlt, hle, hmoved⟩ := h.holding t c i v readAt hlocal
  obtain ⟨q, hq, hwrite⟩ := hmoved hne
  have hqlt : q < s.time := by
    obtain ⟨w, hw, -⟩ := hwrite
    rw [← h.length]
    exact (List.getElem?_eq_some_iff.mp hw).1
  -- the only failure this step adds is its own
  have hmem : ∀ u j p, p ∈ realFailures u j (es ++ [.casFail (R := R) t i v s.word]) →
      p ∈ realFailures u j es ∨ (p = s.time ∧ u = t ∧ j = i) := by
    intro u j p hp
    rw [mem_realFailures_snoc, h.length] at hp
    rcases hp with hold | ⟨hp, _, _, heq, -⟩
    · exact .inl hold
    · simp only [Event.casFail.injEq] at heq
      exact .inr ⟨hp, heq.1.symm, heq.2.1.symm⟩
  constructor
  case length => simp [h.length]
  case started =>
    intro u d j hu
    rcases State.update_eq_cases hu with ⟨-, habsurd⟩ | ⟨htu, hold⟩
    · cases habsurd
    · obtain ⟨hj, hempty⟩ := h.started u d j hold
      refine ⟨Nat.lt_succ_of_lt hj, Set.eq_empty_iff_forall_notMem.mpr fun p hp => ?_⟩
      rcases hmem u j p hp with hold' | ⟨-, hut, -⟩
      · rw [hempty] at hold'
        exact hold'
      · exact htu hut
  case holding =>
    intro u d j w readAt' hu
    rw [State.move_time, State.move_word]
    rcases State.update_eq_cases hu with ⟨rfl, heq⟩ | ⟨htu, hold⟩
    · cases heq
      refine ⟨by omega, Nat.lt_succ_self _, fun p hp => ?_, fun habs => absurd rfl habs⟩
      rcases hmem u i p hp with hold | ⟨rfl, -, -⟩
      · exact (h.mem_lt hold).le
      · exact le_rfl
    · obtain ⟨hj, hlt', hle', hmoved'⟩ := h.holding u d j w readAt' hold
      refine ⟨hj, Nat.lt_succ_of_lt hlt', fun p hp => ?_, fun habs => ?_⟩
      · rcases hmem u j p hp with hold' | ⟨-, hut, -⟩
        · exact hle' p hold'
        · exact absurd hut htu
      · obtain ⟨q', hq', hother⟩ := hmoved' habs
        exact ⟨q', hq', hother.append _⟩
  case later =>
    intro u j p hp
    rcases hmem u j p hp with hold | ⟨rfl, -, rfl⟩
    · exact h.later u j p hold
    · omega
  case matched =>
    intro u j
    obtain ⟨pick, hpick⟩ := h.matched u j
    by_cases hcall : u = t ∧ j = i
    · obtain ⟨rfl, rfl⟩ := hcall
      refine ⟨Function.update pick s.time q, hpick.extend hle (by omega) ⟨by omega, hqlt, hwrite⟩ ?_⟩
      exact fun p hp => (hmem u j p hp).imp_right And.left
    · -- the failure is another call's
      refine ⟨pick, hpick.append_of_eq (realFailures_snoc_of_ne fun expected actual heq => ?_)⟩
      simp only [Event.casFail.injEq] at heq
      exact absurd ⟨heq.1.symm, heq.2.1.symm⟩ hcall

theorem step {program : C → Program W R} (h : Contention es s) {e : Event T C W R}
    {s' : State T C W} (hstep : Step .current program s e s') : Contention (es ++ [e]) s' := by
  cases hstep with
  | @invoke t c hlocal =>
    refine h.other rfl rfl (.inl rfl) (by simp) (fun d i heq => ?_) (by simp)
    simp only [Local.started.injEq] at heq
    exact heq.2.symm
  | @ret t c i r hlocal hprog =>
    exact h.other rfl rfl (.inl rfl) (by simp) (by simp) (by simp)
  | @swap t c i next r hlocal hprog =>
    exact h.other rfl rfl (.inr ⟨_, rfl, rfl⟩) (by simp) (by simp) (by simp)
  | @load t c i body v hlocal hprog hsees =>
    refine h.other rfl rfl (.inl rfl) (by simp) (by simp) (fun d j w readAt heq => ?_)
    simp only [Local.holding.injEq] at heq
    obtain ⟨rfl, rfl, rfl, rfl⟩ := heq
    exact ⟨(h.started t _ _ hlocal).1, rfl, hsees, rfl⟩
  | @done t c i v readAt body r hlocal hprog hbody =>
    exact h.other rfl rfl (.inl rfl) (by simp) (by simp) (by simp)
  | @casFail t c i v readAt body next r hlocal hprog hbody =>
    by_cases hv : v = s.word
    · -- a spurious failure rereads the word it expected
      refine h.other rfl rfl (.inl rfl) (fun u j expected actual heq => ?_) (by simp)
        (fun d j w readAt' heq => ?_)
      · simp only [Event.casFail.injEq] at heq
        rw [← heq.2.2.1, ← heq.2.2.2, hv]
      · simp only [Local.holding.injEq] at heq
        obtain ⟨rfl, rfl, rfl, rfl⟩ := heq
        have := h.holding t _ _ _ _ hlocal
        exact ⟨by omega, rfl, rfl, rfl⟩
    · exact h.lost hlocal hv
  | @casOk t c i v readAt body next r hlocal hprog hbody heq =>
    exact h.other rfl rfl (.inr ⟨_, rfl, rfl⟩) (by simp) (by simp) (by simp)

end Contention

theorem Run.contention [DecidableEq T] {program : C → Program W R} {w₀ : W}
    {es : List (Event T C W R)} {s : State T C W}
    (h : Run .current program (State.start w₀) es s) : Contention es s := by
  induction h with
  | nil => exact Contention.start w₀
  | snoc _ hstep ih => exact ih.step hstep

/-- Within one call every real failure is matched by a distinct write of another thread that
happened after the call's invocation and before the failure. -/
theorem Run.failures_matched [DecidableEq T] {program : C → Program W R} {w₀ : W}
    {es : List (Event T C W R)} {s : State T C W}
    (h : Run .current program (State.start w₀) es s) (t : T) (i : ℕ) :
    ∃ pick, Matches t i es pick := h.contention.matched t i

end CasLoop

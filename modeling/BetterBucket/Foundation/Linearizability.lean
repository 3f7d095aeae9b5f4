import BetterBucket.Foundation.CasLoop

/-!
# Linearizability of compare-exchange loops

A call takes effect at one step between its invocation and its return: a write at the exchange or
swap that makes it, any other looping call at the read whose value decided it.  Sorted by these
steps, the completed calls replay atomically to the results they returned.
-/

namespace CasLoop

variable {T C W R : Type*} [DecidableEq T]

/-- Run atomically one after the other from `word`, the calls return what they recorded and leave
`word'`. -/
def Replays (program : C → Program W R) : W → List (Completion T C R) → W → Prop
  | word, [], word' => word = word'
  | word, c :: cs, word' => ((program c.call).exec word).1 = c.result ∧
      Replays program ((program c.call).exec word).2 cs word'

/-- A reading of the run as a word at every step: `wordAt τ` is the word before step `τ`. -/
structure Timeline (program : C → Program W R) (w₀ : W) (es : List (Event T C W R))
    (s : State T C W) (wordAt : ℕ → W) : Prop where
  starts : wordAt 0 = w₀
  now : wordAt s.time = s.word
  started : ∀ t c i, s.threads t = .started c i → i < s.time
  holding : ∀ t c i v readAt, s.threads t = .holding c i v readAt →
    i < readAt ∧ readAt < s.time ∧ wordAt readAt = v ∧ wordAt (readAt + 1) = v
  within : ∀ c ∈ completions es, c.invoked < c.effect ∧ c.effect ≤ c.returned ∧ c.returned < s.time
  effects : ∀ c ∈ completions es,
    (program c.call).exec (wordAt c.effect) = (c.result, wordAt (c.effect + 1))
  quiet : ∀ τ < s.time, (∀ c ∈ completions es, c.effect ≠ τ) → wordAt (τ + 1) = wordAt τ
  distinct : (completions es).Pairwise fun a b => a.effect ≠ b.effect
  unclaimed : ∀ t c i v readAt, s.threads t = .holding c i v readAt →
    ∀ c' ∈ completions es, c'.effect ≠ readAt
  exclusive : ∀ t t' c i v c' i' v' readAt, s.threads t = .holding c i v readAt →
    s.threads t' = .holding c' i' v' readAt → t = t'

/-- `wordAt` with the word after step `time` filled in. -/
def extendAt (wordAt : ℕ → W) (time : ℕ) (word : W) : ℕ → W :=
  fun τ => if τ ≤ time then wordAt τ else word

omit [DecidableEq T] in
theorem extendAt_of_le {wordAt : ℕ → W} {time τ : ℕ} {word : W} (h : τ ≤ time) :
    extendAt wordAt time word τ = wordAt τ := if_pos h

omit [DecidableEq T] in
theorem extendAt_succ (wordAt : ℕ → W) (time : ℕ) (word : W) :
    extendAt wordAt time word (time + 1) = word := if_neg (by omega)

namespace Timeline

variable {program : C → Program W R} {w₀ : W} {es : List (Event T C W R)} {s : State T C W}
  {wordAt : ℕ → W}

omit [DecidableEq T] in
theorem start (program : C → Program W R) (w₀ : W) :
    Timeline (T := T) program w₀ [] (State.start w₀) fun _ => w₀ := by
  constructor <;> simp [State.start, completions]

/-! What one thread's move to `l` keeps, whatever word the step leaves. -/

section Move

variable {t : T} {l : Local C W} {c : Completion T C R}

theorem move_started (h : Timeline program w₀ es s wordAt)
    (hstarted : ∀ c i, l = .started c i → i ≤ s.time) (u : T) (c : C) (i : ℕ)
    (hu : Function.update s.threads t l u = .started c i) : i < s.time + 1 := by
  rcases State.update_eq_cases hu with ⟨-, hl⟩ | ⟨-, hold⟩
  · exact Nat.lt_succ_of_le (hstarted c i hl)
  · exact Nat.lt_succ_of_lt (h.started u c i hold)

/-- The word before and after the step of a read is the one it saw. -/
theorem move_holding (h : Timeline program w₀ es s wordAt) {word : W}
    (hread : ∀ c i v readAt, l = .holding c i v readAt →
      i < s.time ∧ readAt = s.time ∧ v = s.word ∧ v = word)
    (u : T) (c : C) (i : ℕ) (v : W) (readAt : ℕ)
    (hu : Function.update s.threads t l u = .holding c i v readAt) :
    i < readAt ∧ readAt < s.time + 1 ∧ extendAt wordAt s.time word readAt = v ∧
      extendAt wordAt s.time word (readAt + 1) = v := by
  rcases State.update_eq_cases hu with ⟨-, hl⟩ | ⟨-, hold⟩
  · obtain ⟨hi, rfl, hnow, hnext⟩ := hread c i v readAt hl
    exact ⟨hi, Nat.lt_succ_self _, by rw [extendAt_of_le le_rfl, h.now, hnow],
      by rw [extendAt_succ, hnext]⟩
  · obtain ⟨hi, hlt, hnow, hnext⟩ := h.holding u c i v readAt hold
    exact ⟨hi, Nat.lt_succ_of_lt hlt, by rw [extendAt_of_le hlt.le, hnow],
      by rw [extendAt_of_le (Nat.succ_le_of_lt hlt), hnext]⟩

/-- No call that completed so far took effect at this step, or at a read some thread still holds. -/
theorem move_unclaimed (h : Timeline program w₀ es s wordAt)
    (hfresh : ∀ c i v readAt, l = .holding c i v readAt → readAt = s.time)
    (u : T) (d : C) (i : ℕ) (v : W) (readAt : ℕ)
    (hu : Function.update s.threads t l u = .holding d i v readAt) (hc : c ∈ completions es) :
    c.effect ≠ readAt := by
  rcases State.update_eq_cases hu with ⟨-, hl⟩ | ⟨-, hold⟩
  · have hreadAt := hfresh d i v readAt hl
    have hwithin := h.within c hc
    omega
  · exact h.unclaimed u d i v readAt hold c hc

/-- A read of this step is no other thread's. -/
theorem move_exclusive (h : Timeline program w₀ es s wordAt)
    (hfresh : ∀ c i v readAt, l = .holding c i v readAt → readAt = s.time)
    (u u' : T) (d : C) (i : ℕ) (v : W) (d' : C) (i' : ℕ) (v' : W) (readAt : ℕ)
    (hu : Function.update s.threads t l u = .holding d i v readAt)
    (hu' : Function.update s.threads t l u' = .holding d' i' v' readAt) : u = u' := by
  rcases State.update_eq_cases hu with ⟨rfl, hl⟩ | ⟨-, hold⟩ <;>
    rcases State.update_eq_cases hu' with ⟨rfl, hl'⟩ | ⟨-, hold'⟩
  · rfl
  · have hreadAt := hfresh d i v readAt hl
    have hearlier := h.holding u' d' i' v' readAt hold'
    omega
  · have hreadAt := hfresh d' i' v' readAt hl'
    have hearlier := h.holding u d i v readAt hold
    omega
  · exact h.exclusive u u' d i v d' i' v' readAt hold hold'

omit [DecidableEq T] in
theorem later_within (h : Timeline program w₀ es s wordAt) (hc : c ∈ completions es) :
    c.invoked < c.effect ∧ c.effect ≤ c.returned ∧ c.returned < s.time + 1 := by
  obtain ⟨hinvoked, hreturned, hlt⟩ := h.within c hc
  exact ⟨hinvoked, hreturned, Nat.lt_succ_of_lt hlt⟩

omit [DecidableEq T] in
theorem later_effects (h : Timeline program w₀ es s wordAt) (word : W) (hc : c ∈ completions es) :
    (program c.call).exec (extendAt wordAt s.time word c.effect) =
      (c.result, extendAt wordAt s.time word (c.effect + 1)) := by
  obtain ⟨-, hreturned, hlt⟩ := h.within c hc
  rw [extendAt_of_le (by omega), extendAt_of_le (by omega), h.effects c hc]

omit [DecidableEq T] in
theorem later_quiet (h : Timeline program w₀ es s wordAt) (word : W) {τ : ℕ} (hτ : τ < s.time)
    (hnone : ∀ c ∈ completions es, c.effect ≠ τ) :
    extendAt wordAt s.time word (τ + 1) = extendAt wordAt s.time word τ := by
  rw [extendAt_of_le hτ, extendAt_of_le hτ.le, h.quiet τ hτ hnone]

end Move

/-- A step that completes nothing and leaves the word alone. -/
theorem silent (h : Timeline program w₀ es s wordAt) {e : Event T C W R} {t : T} {l : Local C W}
    (hc : e.completion? = none)
    (hstarted : ∀ c i, l = .started c i → i ≤ s.time)
    (hholding : ∀ c i v readAt, l = .holding c i v readAt →
      i < s.time ∧ readAt = s.time ∧ v = s.word) :
    Timeline program w₀ (es ++ [e]) (s.move t l) (extendAt wordAt s.time s.word) := by
  have hcomp : completions (es ++ [e]) = completions es := by
    rw [completions_append]
    simp [completions, hc]
  have hfresh : ∀ c i v readAt, l = .holding c i v readAt → readAt = s.time :=
    fun c i v readAt hl => (hholding c i v readAt hl).2.1
  constructor
  case starts => rw [extendAt_of_le (Nat.zero_le _), h.starts]
  case now => rw [State.move_time, State.move_word, extendAt_succ]
  case started => exact h.move_started hstarted
  case holding =>
    apply h.move_holding
    intro c i v readAt hl
    obtain ⟨hi, hreadAt, hv⟩ := hholding c i v readAt hl
    exact ⟨hi, hreadAt, hv, hv⟩
  case within =>
    rw [hcomp]
    exact fun c hmem => h.later_within hmem
  case effects =>
    rw [hcomp]
    exact fun c hmem => h.later_effects s.word hmem
  case quiet =>
    intro τ hτ hnone
    rw [hcomp] at hnone
    rcases Nat.lt_succ_iff_lt_or_eq.mp hτ with hlt | rfl
    · exact h.later_quiet s.word hlt hnone
    · -- the word after this step is the word before it
      rw [extendAt_succ, extendAt_of_le le_rfl, h.now]
  case distinct =>
    rw [hcomp]
    exact h.distinct
  case unclaimed =>
    intro u c i v readAt hu c' hmem
    rw [hcomp] at hmem
    exact h.move_unclaimed hfresh u c i v readAt hu hmem
  case exclusive => exact h.move_exclusive hfresh

/-- A step that completes the call `c` of thread `c.thread` and leaves `next` in the word. -/
theorem completes (h : Timeline program w₀ es s wordAt) {s' : State T C W} {e : Event T C W R}
    {c : Completion T C R} {next : W}
    (hs' : s'.threads = Function.update s.threads c.thread .idle) (htime : s'.time = s.time + 1)
    (hword : s'.word = next) (hc : e.completion? = some c)
    (hwithin : c.invoked < c.effect ∧ c.effect ≤ c.returned ∧ c.returned = s.time)
    (heffect : (program c.call).exec (wordAt c.effect) =
      (c.result, extendAt wordAt s.time next (c.effect + 1)))
    (hquiet : c.effect < s.time → next = s.word)
    (hfresh : ∀ c' ∈ completions es, c'.effect ≠ c.effect)
    (hfree : ∀ u d i v readAt, u ≠ c.thread → s.threads u = .holding d i v readAt →
      c.effect ≠ readAt) :
    Timeline program w₀ (es ++ [e]) s' (extendAt wordAt s.time next) := by
  have hcomp : completions (es ++ [e]) = completions es ++ [c] := by
    rw [completions_append]
    simp [completions, hc]
  have hmem : ∀ c', c' ∈ completions (es ++ [e]) ↔ c' ∈ completions es ∨ c' = c := by
    intro c'
    rw [hcomp, List.mem_append, List.mem_singleton]
  constructor
  case starts => rw [extendAt_of_le (Nat.zero_le _), h.starts]
  case now => rw [htime, extendAt_succ, hword]
  case started =>
    rw [hs', htime]
    exact h.move_started (by simp)
  case holding =>
    rw [hs', htime]
    exact h.move_holding (by simp)
  case within =>
    rw [htime]
    intro c' hc'
    rcases (hmem c').mp hc' with hold | rfl
    · exact h.later_within hold
    · exact ⟨hwithin.1, hwithin.2.1, by omega⟩
  case effects =>
    intro c' hc'
    rcases (hmem c').mp hc' with hold | rfl
    · exact h.later_effects next hold
    · rw [extendAt_of_le (by omega), heffect]
  case quiet =>
    rw [htime]
    intro τ hτ hnone
    have hne : c.effect ≠ τ := hnone c ((hmem c).mpr (.inr rfl))
    rcases Nat.lt_succ_iff_lt_or_eq.mp hτ with hlt | rfl
    · exact h.later_quiet next hlt fun c' hold => hnone c' ((hmem c').mpr (.inl hold))
    · rw [extendAt_succ, extendAt_of_le le_rfl, h.now, hquiet (by omega)]
  case distinct =>
    rw [hcomp, List.pairwise_append]
    refine ⟨h.distinct, List.pairwise_singleton _ _, fun a ha b hb => ?_⟩
    rw [List.mem_singleton.mp hb]
    exact hfresh a ha
  case unclaimed =>
    rw [hs']
    intro u d i v readAt hu c' hc'
    rcases (hmem c').mp hc' with hold | rfl
    · exact h.move_unclaimed (by simp) u d i v readAt hu hold
    · -- another thread does not hold the read the call took effect at
      rcases State.update_eq_cases hu with ⟨-, hidle⟩ | ⟨hne, hold⟩
      · cases hidle
      · exact hfree u d i v readAt hne hold
  case exclusive =>
    rw [hs']
    exact h.move_exclusive (by simp)

/-- A call that takes effect at the step that ends it. -/
theorem completesNow (h : Timeline program w₀ es s wordAt) {s' : State T C W} {e : Event T C W R}
    {t : T} {c : C} {r : R} {i : ℕ} {next : W}
    (hs' : s'.threads = Function.update s.threads t .idle) (htime : s'.time = s.time + 1)
    (hword : s'.word = next) (hc : e.completion? = some ⟨t, c, r, i, s.time, s.time⟩)
    (hi : i < s.time) (hexec : (program c).exec s.word = (r, next)) :
    Timeline program w₀ (es ++ [e]) s' (extendAt wordAt s.time next) := by
  refine h.completes hs' htime hword hc ⟨hi, le_rfl, rfl⟩ ?_ (fun hlt => absurd hlt (lt_irrefl _))
    (fun c' hmem => ?_) (fun u d j v readAt _ hu => ?_)
  · rw [h.now, hexec, extendAt_succ]
  · have := h.within c' hmem
    show c'.effect ≠ s.time
    omega
  · have := h.holding u d j v readAt hu
    show s.time ≠ readAt
    omega

theorem step (h : Timeline program w₀ es s wordAt) {e : Event T C W R} {s' : State T C W}
    (hstep : Step .current program s e s') :
    ∃ wordAt', Timeline program w₀ (es ++ [e]) s' wordAt' := by
  cases hstep with
  | @invoke t c hlocal =>
    refine ⟨_, h.silent rfl (fun d i heq => ?_) (fun d i v readAt heq => by simp at heq)⟩
    simp only [Local.started.injEq] at heq
    omega
  | @load t c i body v hlocal hprog hsees =>
    refine ⟨_, h.silent rfl (fun d j heq => by simp at heq) (fun d j w readAt heq => ?_)⟩
    simp only [Local.holding.injEq] at heq
    obtain ⟨rfl, rfl, rfl, rfl⟩ := heq
    exact ⟨h.started t _ _ hlocal, rfl, hsees⟩
  | @casFail t c i v readAt body next r hlocal hprog hbody =>
    refine ⟨_, h.silent rfl (fun d j heq => by simp at heq) (fun d j w readAt' heq => ?_)⟩
    simp only [Local.holding.injEq] at heq
    obtain ⟨rfl, rfl, rfl, rfl⟩ := heq
    have := h.holding t _ _ _ _ hlocal
    exact ⟨by omega, rfl, rfl⟩
  | @ret t c i r hlocal hprog =>
    exact ⟨_, h.completesNow rfl rfl rfl rfl (h.started t c i hlocal) (by simp [hprog, Program.exec])⟩
  | @swap t c i next r hlocal hprog =>
    exact ⟨_, h.completesNow rfl rfl rfl rfl (h.started t c i hlocal) (by simp [hprog, Program.exec])⟩
  | @casOk t c i v readAt body next r hlocal hprog hbody heq =>
    have hi := h.holding t c i v readAt hlocal
    subst heq
    exact ⟨_, h.completesNow rfl rfl rfl rfl (by omega) (by simp [hprog, Program.exec, hbody])⟩
  | @done t c i v readAt body r hlocal hprog hbody =>
    -- the call took effect at its last read; the word may have moved on since
    obtain ⟨hi, hlt, hread, hnext⟩ := h.holding t c i v readAt hlocal
    refine ⟨_, h.completes (c := ⟨t, c, r, i, readAt, s.time⟩) rfl rfl rfl rfl ⟨hi, hlt.le, rfl⟩ ?_
      (fun _ => rfl) (h.unclaimed t c i v readAt hlocal) (fun u d j w readAt' hne hu => ?_)⟩
    · show (program c).exec (wordAt readAt) = _
      rw [extendAt_of_le (Nat.succ_le_of_lt hlt), hread, hnext]
      simp [hprog, Program.exec, hbody]
    · rintro rfl
      exact hne (h.exclusive u t d j w c i v readAt hu hlocal)

end Timeline

theorem Run.timeline {program : C → Program W R} {w₀ : W} {es : List (Event T C W R)}
    {s : State T C W} (h : Run .current program (State.start w₀) es s) :
    ∃ wordAt, Timeline program w₀ es s wordAt := by
  induction h with
  | nil => exact ⟨_, Timeline.start program w₀⟩
  | snoc _ hstep ih =>
    obtain ⟨wordAt, h⟩ := ih
    exact h.step hstep

theorem wordAt_eq_of_quiet {wordAt : ℕ → W} {a b : ℕ} (hab : a ≤ b)
    (hquiet : ∀ τ, a ≤ τ → τ < b → wordAt (τ + 1) = wordAt τ) : wordAt b = wordAt a := by
  induction b, hab using Nat.le_induction with
  | base => rfl
  | succ b hb ih => rw [hquiet b hb (Nat.lt_succ_self b),
      ih fun τ h1 h2 => hquiet τ h1 (Nat.lt_succ_of_lt h2)]

omit [DecidableEq T] in
/-- Calls in the order of their effects, between which the word rests, replay. -/
theorem replays_of_effects {program : C → Program W R} {wordAt : ℕ → W} {a b : ℕ} (hab : a ≤ b)
    {cs : List (Completion T C R)} (hsorted : cs.Pairwise fun c c' => c.effect < c'.effect)
    (hrange : ∀ c ∈ cs, a ≤ c.effect ∧ c.effect < b)
    (heffects : ∀ c ∈ cs,
      (program c.call).exec (wordAt c.effect) = (c.result, wordAt (c.effect + 1)))
    (hquiet : ∀ τ, a ≤ τ → τ < b → (∀ c ∈ cs, c.effect ≠ τ) → wordAt (τ + 1) = wordAt τ) :
    Replays program (wordAt a) cs (wordAt b) := by
  induction cs generalizing a with
  | nil => exact (wordAt_eq_of_quiet hab fun τ h1 h2 => hquiet τ h1 h2 (by simp)).symm
  | cons c cs ih =>
    obtain ⟨hhead, htail⟩ := List.pairwise_cons.mp hsorted
    have hc := hrange c (by simp)
    -- nothing takes effect before the first call, so it runs on the word at the start
    have hrest : wordAt c.effect = wordAt a := by
      refine wordAt_eq_of_quiet hc.1 fun τ h1 h2 => hquiet τ h1 (by omega) fun c' hmem => ?_
      rcases List.mem_cons.mp hmem with rfl | hmem
      · omega
      · have := hhead c' hmem
        omega
    have hexec := heffects c (by simp)
    rw [hrest] at hexec
    refine ⟨by rw [hexec], ?_⟩
    rw [hexec]
    refine ih (by omega) htail (fun c' hmem => ?_) (fun c' hmem => heffects c' (by simp [hmem]))
      (fun τ h1 h2 hnone => hquiet τ (by omega) h2 fun c' hmem => ?_)
    · exact ⟨hhead c' hmem, (hrange c' (by simp [hmem])).2⟩
    · rcases List.mem_cons.mp hmem with rfl | hmem
      · omega
      · exact hnone c' hmem

/-- The completed calls have an atomic order with the same results and the same final word, in which
no call comes before one that had returned when it was invoked. -/
theorem Run.linearizable {program : C → Program W R} {w₀ : W} {es : List (Event T C W R)}
    {s : State T C W} (h : Run .current program (State.start w₀) es s) :
    ∃ order : List (Completion T C R), order.Perm (completions es) ∧
      order.Pairwise (fun a b => ¬ b.returned < a.invoked) ∧ Replays program w₀ order s.word := by
  obtain ⟨wordAt, h⟩ := h.timeline
  -- no two calls take effect at one step, so sorting by effect is strict
  let order := (completions es).insertionSort fun a b => a.effect ≤ b.effect
  have hperm : order.Perm (completions es) := List.perm_insertionSort _ _
  have hmem : ∀ c, c ∈ order ↔ c ∈ completions es := fun c => hperm.mem_iff
  have : Std.Total fun a b : Completion T C R => a.effect ≤ b.effect :=
    ⟨fun a b => le_total a.effect b.effect⟩
  have : IsTrans (Completion T C R) fun a b => a.effect ≤ b.effect :=
    ⟨fun a b c hab hbc => hab.trans hbc⟩
  have hle : order.Pairwise fun a b => a.effect ≤ b.effect := List.pairwise_insertionSort _ _
  have hne : order.Pairwise fun a b => a.effect ≠ b.effect :=
    (hperm.pairwise_iff fun hxy => hxy.symm).mpr h.distinct
  have hlt : order.Pairwise fun a b => a.effect < b.effect :=
    (hle.and hne).imp fun hab => lt_of_le_of_ne hab.1 hab.2
  refine ⟨order, hperm, ?_, ?_⟩
  · refine hlt.imp_of_mem fun {a b} ha hb hab => ?_
    have := h.within a ((hmem a).mp ha)
    have := h.within b ((hmem b).mp hb)
    omega
  · rw [← h.starts, ← h.now]
    refine replays_of_effects (Nat.zero_le _) hlt (fun c hc => ?_)
      (fun c hc => h.effects c ((hmem c).mp hc)) (fun τ _ h2 hnone => ?_)
    · have := h.within c ((hmem c).mp hc)
      exact ⟨Nat.zero_le _, by omega⟩
    · exact h.quiet τ h2 fun c hc => hnone c ((hmem c).mpr hc)

end CasLoop

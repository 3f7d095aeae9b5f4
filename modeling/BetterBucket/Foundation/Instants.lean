import BetterBucket.Foundation.CasLoop

/-!
# Steps and instants

The step numbers a completed call carries are positions in the run's event list, so a clock read at
every step dates them: `Stamped` says each call was invoked with the reading of its own step.
-/

namespace CasLoop

variable {T C W R S : Type*}

/-- The call a thread is in and the step it was invoked at. -/
def Local.since? : Local C W → Option (C × ℕ)
  | .idle => none
  | .started c i => some (c, i)
  | .holding c i _ _ => some (c, i)

/-- Every invoked call carries the reading of the instant of its invocation, if it carries one. -/
def Stamped (reading : C → Option S) (instant : ℕ → S) (es : List (Event T C W R)) : Prop :=
  ∀ p ∈ es.zipIdx, ∀ c ∈ p.1.call?, ∀ now ∈ reading c, now = instant p.2

instance [DecidableEq S] (reading : C → Option S) (instant : ℕ → S) (es : List (Event T C W R)) :
    Decidable (Stamped reading instant es) :=
  inferInstanceAs (Decidable (∀ p ∈ es.zipIdx, ∀ c ∈ p.1.call?, ∀ now ∈ reading c, now = instant p.2))

structure Positions (es : List (Event T C W R)) (s : State T C W) : Prop where
  length : es.length = s.time
  busy : ∀ t c i, (s.threads t).since? = some (c, i) → i < s.time ∧ es[i]? = some (.invoke t c)
  written : ∀ w ∈ writes es, w.invoked < w.effect ∧ w.effect < s.time ∧
    es[w.invoked]? = some (.invoke w.thread w.call)
  sorted : (writes es).Pairwise fun a b => a.effect < b.effect

namespace Positions

variable {es : List (Event T C W R)} {s s' : State T C W} {e : Event T C W R}

theorem start (w₀ : W) : Positions (R := R) [] (State.start w₀ : State T C W) := by
  constructor <;> simp [State.start, Local.since?, writes]

variable [DecidableEq T]

/-- A step moves one thread, and a write belongs to the call its thread was in. -/
theorem extend (h : Positions es s) {t : T} {l : Local C W}
    (hthreads : s'.threads = Function.update s.threads t l) (htime : s'.time = s.time + 1)
    (hlocal : ∀ c i, l.since? = some (c, i) →
      (s.threads t).since? = some (c, i) ∨ i = s.time ∧ e = .invoke t c)
    (hwrite : ∀ w, e = .commit w → w.effect = s.time ∧ w.thread = t ∧
      (s.threads t).since? = some (w.call, w.invoked)) : Positions (es ++ [e]) s' := by
  have hkeep : ∀ {i : ℕ} {e' : Event T C W R}, i < s.time → es[i]? = some e' →
      (es ++ [e])[i]? = some e' := by
    intro i e' hi hget
    rw [List.getElem?_append_left (by rw [h.length]; exact hi), hget]
  have hwrites : writes (es ++ [e]) = writes es ++ (e.write?).toList := by
    rw [writes_append]
    cases hw : e.write? <;> simp [writes, hw]
  constructor
  case length => simp [h.length, htime]
  case busy =>
    intro u c i hu
    rw [hthreads] at hu
    rw [htime]
    by_cases htu : u = t
    · subst htu
      rw [Function.update_self] at hu
      rcases hlocal c i hu with hold | ⟨rfl, rfl⟩
      · obtain ⟨hi, hget⟩ := h.busy u c i hold
        exact ⟨by omega, hkeep hi hget⟩
      · exact ⟨Nat.lt_succ_self _, by simp [← h.length]⟩
    · rw [Function.update_of_ne htu] at hu
      obtain ⟨hi, hget⟩ := h.busy u c i hu
      exact ⟨by omega, hkeep hi hget⟩
  case written =>
    intro w hw
    rw [hwrites, List.mem_append] at hw
    rw [htime]
    -- an older write, or the one this step commits
    rcases hw with hold | hnew
    · obtain ⟨h1, h2, hget⟩ := h.written w hold
      exact ⟨h1, by omega, hkeep (by omega) hget⟩
    · have he : e = .commit w := Event.write?_eq_some.mp (Option.mem_toList.mp hnew)
      obtain ⟨heffect, hthread, hcall⟩ := hwrite w he
      obtain ⟨hi, hget⟩ := h.busy t w.call w.invoked hcall
      exact ⟨by omega, by omega, by rw [hthread]; exact hkeep hi hget⟩
  case sorted =>
    rw [hwrites, List.pairwise_append]
    refine ⟨h.sorted, by cases e.write? <;> simp, fun a ha b hb => ?_⟩
    have he : e = .commit b := Event.write?_eq_some.mp (Option.mem_toList.mp hb)
    have := (hwrite b he).1
    have := (h.written a ha).2.1
    omega

theorem step {loads : Loads} {program : C → Program W R} (h : Positions es s)
    (hstep : Step loads program s e s') : Positions (es ++ [e]) s' := by
  cases hstep with
  | @invoke t c hlocal =>
    refine h.extend rfl rfl (fun d i heq => .inr ?_) (by simp)
    simp only [Local.since?, Option.some.injEq, Prod.mk.injEq] at heq
    exact ⟨heq.2.symm, by rw [heq.1]⟩
  | @ret t c i r hlocal hprog => exact h.extend rfl rfl (by simp [Local.since?]) (by simp)
  | @swap t c i next r hlocal hprog =>
    refine h.extend rfl rfl (by simp [Local.since?]) fun w heq => ?_
    cases heq
    exact ⟨rfl, rfl, by rw [hlocal, Local.since?]⟩
  | @load t c i body v hlocal hprog hsees =>
    exact h.extend rfl rfl (fun d j heq => .inl (by rw [hlocal]; exact heq)) (by simp)
  | @done t c i v readAt body r hlocal hprog hbody =>
    exact h.extend rfl rfl (by simp [Local.since?]) (by simp)
  | @casFail t c i v readAt body next r hlocal hprog hbody =>
    exact h.extend rfl rfl (fun d j heq => .inl (by rw [hlocal]; exact heq)) (by simp)
  | @casOk t c i v readAt body next r hlocal hprog hbody heq =>
    refine h.extend rfl rfl (by simp [Local.since?]) fun w heq => ?_
    cases heq
    exact ⟨rfl, rfl, by rw [hlocal, Local.since?]⟩

end Positions

section Runs

variable [DecidableEq T] {loads : Loads} {program : C → Program W R} {w₀ : W} {s : State T C W}
  {es : List (Event T C W R)}

theorem Run.positions (h : Run loads program (State.start w₀) es s) : Positions es s := by
  induction h with
  | nil => exact Positions.start w₀
  | snoc _ hstep ih => exact ih.step hstep

/-- A write of a stamped run carries a reading no later than its own step. -/
theorem Run.write_reading (h : Run loads program (State.start w₀) es s) {reading : C → Option S}
    {instant : ℕ → S} (hstamped : Stamped reading instant es) {w : Write T C W R}
    (hw : w ∈ writes es) {now : S} (hnow : reading w.call = some now) :
    now = instant w.invoked ∧ w.invoked < w.effect := by
  obtain ⟨hlt, -, hget⟩ := h.positions.written w hw
  refine ⟨hstamped (.invoke w.thread w.call, w.invoked) ?_ w.call rfl now hnow, hlt⟩
  exact List.mk_mem_zipIdx_iff_getElem?.mpr hget

end Runs

end CasLoop

import BetterBucket.Foundation.Instants

/-!
# Where in the log a call looked

A completed call returned what it returns run in one piece on some word of the log (`Observed`): a
writing call on the word its write replaced, the last of the log by then, and any other on the word
that decided it.  When loads return the current word that place lies within the call; when they may
return an earlier one it only lies before the return.
-/

namespace CasLoop

variable {T C W R : Type*}

/-- The call `c` ran on `word`, the word after `seen`, and left the log at `left`: where it was, or with
the call's own write, which is the last when it returns. -/
structure Observed (program : C → Program W R) (w₀ : W) (es : List (Event T C W R)) (c : Completion T C R)
    (seen left : List (Write T C W R)) (word : W) : Prop where
  linked : Linked program w₀ seen word
  leaves : Linked program w₀ left ((program c.call).exec word).2
  result : ((program c.call).exec word).1 = c.result
  within : left <+: writes (es.take (c.returned + 1))
  grows : .finish c ∈ es ∧ left = seen ∨
    ∃ w, w.toCompletion = c ∧ left = seen ++ [w] ∧ left = writes (es.take (c.returned + 1))

theorem Linked.functional {program : C → Program W R} {word word' word'' : W}
    {ws : List (Write T C W R)} (h : Linked program word ws word')
    (h' : Linked program word ws word'') : word' = word'' := by
  induction ws generalizing word with
  | nil =>
    have heq : word = word' := h
    have heq' : word = word'' := h'
    rw [← heq, heq']
  | cons w ws ih => exact ih h.2.2 h'.2.2

theorem writes_take (es : List (Event T C W R)) (i : ℕ) : writes (es.take i) <+: writes es :=
  (List.take_prefix i es).filterMap _

theorem Event.completion?_eq_some {e : Event T C W R} {c : Completion T C R} :
    e.completion? = some c ↔ (∃ w, e = .commit w ∧ w.toCompletion = c) ∨ e = .finish c := by
  cases e <;> simp [Event.completion?]

namespace Observed

variable {program : C → Program W R} {w₀ : W} {es : List (Event T C W R)} {c : Completion T C R}
  {seen left : List (Write T C W R)} {word : W}

/-- From the word the call left, the rest of any longer part of the log leads on. -/
theorem reaches (h : Observed program w₀ es c seen left word) {pre : List (Write T C W R)} {word' : W}
    (hleft : left <+: pre) (hpre : Linked program w₀ pre word') :
    ∃ ws, pre = left ++ ws ∧ Linked program ((program c.call).exec word).2 ws word' := by
  obtain ⟨ws, rfl⟩ := hleft
  -- the log leads to one word only, so the rest starts at the word the call left
  obtain ⟨mid, hmid, hws⟩ := hpre.split
  rw [hmid.functional h.leaves] at hws
  exact ⟨ws, rfl, hws⟩

/-- What happens after the call returned does not matter to it. -/
theorem later (h : Observed program w₀ es c seen left word) (hreturned : c.returned < es.length)
    (es' : List (Event T C W R)) : Observed program w₀ (es ++ es') c seen left word := by
  have htake : (es ++ es').take (c.returned + 1) = es.take (c.returned + 1) :=
    List.take_append_of_le_length hreturned
  obtain ⟨hlinked, hleaves, hresult, hwithin, hgrows⟩ := h
  rw [← htake] at hwithin hgrows
  exact ⟨hlinked, hleaves, hresult, hwithin,
    hgrows.imp_left fun hfinish => ⟨List.mem_append_left _ hfinish.1, hfinish.2⟩⟩

end Observed

/-- What the words in play have to do with the log. -/
structure Views (loads : Loads) (program : C → Program W R) (w₀ : W) (es : List (Event T C W R))
    (s : State T C W) : Prop where
  length : es.length = s.time
  linked : Linked program w₀ (writes es) s.word
  past : ∀ v ∈ s.past, ∃ seen, seen <+: writes es ∧ Linked program w₀ seen v
  started : ∀ t c i, s.threads t = .started c i → i < s.time
  holding : ∀ t c i v readAt, s.threads t = .holding c i v readAt → i < s.time ∧
    ∃ seen, seen <+: writes es ∧ Linked program w₀ seen v ∧
      (loads = .current → writes (es.take i) <+: seen)
  completed : ∀ c ∈ completions es, c.invoked < s.time ∧ c.returned < s.time ∧
    ∃ seen left word, Observed program w₀ es c seen left word ∧
      (loads = .current → writes (es.take c.invoked) <+: seen)

namespace Views

variable {loads : Loads} {program : C → Program W R} {w₀ : W} {es : List (Event T C W R)}
  {s s' : State T C W} {e : Event T C W R}

theorem start (loads : Loads) (program : C → Program W R) (w₀ : W) :
    Views (T := T) loads program w₀ [] (State.start w₀) := by
  constructor <;> simp [State.start, completions, writes, Linked]

/-- What a load may return is the word after some part of the log. -/
theorem sees (h : Views loads program w₀ es s) {v : W} (hsees : loads.Sees s v) :
    ∃ seen, seen <+: writes es ∧ Linked program w₀ seen v ∧ (loads = .current → seen = writes es) := by
  cases loads with
  | current =>
    have hv : v = s.word := hsees
    exact ⟨writes es, List.prefix_rfl, hv ▸ h.linked, fun _ => rfl⟩
  | anyEarlier =>
    rcases hsees with hv | hpast
    · exact ⟨writes es, List.prefix_rfl, hv ▸ h.linked, fun _ => rfl⟩
    · obtain ⟨seen, hseen, hlinked⟩ := h.past v hpast
      exact ⟨seen, hseen, hlinked, by simp⟩

variable [DecidableEq T]

/-- A step of thread `t` that goes to `l`: what it adds to the log, to the past words and to the
completed calls is for the step to show, all else stays. -/
theorem extend (h : Views loads program w₀ es s) {t : T} {l : Local C W}
    (hthreads : s'.threads = Function.update s.threads t l) (htime : s'.time = s.time + 1)
    (hlinked : Linked program w₀ (writes (es ++ [e])) s'.word)
    (hpast : ∀ v ∈ s'.past, v = s.word ∨ v ∈ s.past)
    (hstarted : ∀ c i, l = .started c i → i ≤ s.time)
    (hholding : ∀ c i v readAt, l = .holding c i v readAt → i < s.time ∧
      ∃ seen, seen <+: writes es ∧ Linked program w₀ seen v ∧
        (loads = .current → writes (es.take i) <+: seen))
    (hcompleted : ∀ c, e.completion? = some c → c.invoked < s.time ∧ c.returned = s.time ∧
      ∃ seen left word, Observed program w₀ (es ++ [e]) c seen left word ∧
        (loads = .current → writes (es.take c.invoked) <+: seen)) :
    Views loads program w₀ (es ++ [e]) s' := by
  have hgrow : writes es <+: writes (es ++ [e]) := by
    rw [writes_append]
    exact List.prefix_append _ _
  -- one step later the events up to an earlier time are the same
  have htake : ∀ {i : ℕ}, i ≤ s.time → (es ++ [e]).take i = es.take i := by
    intro i hi
    exact List.take_append_of_le_length (by rw [h.length]; exact hi)
  constructor
  case length => simp [h.length, htime]
  case linked => exact hlinked
  case past =>
    intro v hv
    rcases hpast v hv with rfl | hold
    · exact ⟨writes es, hgrow, h.linked⟩
    · obtain ⟨seen, hseen, hlinked⟩ := h.past v hold
      exact ⟨seen, hseen.trans hgrow, hlinked⟩
  case started =>
    intro u c i hu
    rw [hthreads] at hu
    rw [htime]
    rcases State.update_eq_cases hu with ⟨-, rfl⟩ | ⟨-, hold⟩
    · exact Nat.lt_succ_of_le (hstarted c i rfl)
    · exact Nat.lt_succ_of_lt (h.started u c i hold)
  case holding =>
    intro u c i v readAt hu
    rw [hthreads] at hu
    rw [htime]
    have hkeep : i < s.time ∧ ∃ seen, seen <+: writes es ∧ Linked program w₀ seen v ∧
        (loads = .current → writes (es.take i) <+: seen) := by
      rcases State.update_eq_cases hu with ⟨-, rfl⟩ | ⟨-, hold⟩
      · exact hholding c i v readAt rfl
      · exact h.holding u c i v readAt hold
    obtain ⟨hi, seen, hseen, hlinked, hcurrent⟩ := hkeep
    exact ⟨by omega, seen, hseen.trans hgrow, hlinked, by rw [htake hi.le]; exact hcurrent⟩
  case completed =>
    intro c hc
    rw [completions_append, List.mem_append] at hc
    rw [htime]
    -- an older call, or the one this step completes
    rcases hc with hold | hnew
    · obtain ⟨hi, hr, seen, left, word, hobserved, hcurrent⟩ := h.completed c hold
      exact ⟨by omega, by omega, seen, left, word, hobserved.later (by rw [h.length]; exact hr) [e],
        by rw [htake hi.le]; exact hcurrent⟩
    · have hcomp : e.completion? = some c := by
        obtain ⟨e', he', hcomp⟩ := List.mem_filterMap.mp hnew
        rwa [List.mem_singleton.mp he'] at hcomp
      obtain ⟨hi, hr, seen, left, word, hobserved, hcurrent⟩ := hcompleted c hcomp
      exact ⟨by omega, by omega, seen, left, word, hobserved, by rw [htake hi.le]; exact hcurrent⟩

omit [DecidableEq T] in
/-- A call that ends on the current word saw the whole log, and its own write comes next. -/
theorem ends (h : Views loads program w₀ es s) {c : Completion T C R} (hc : e.completion? = some c)
    (hreturned : c.returned = s.time)
    (hlinked : Linked program w₀ (writes (es ++ [e])) ((program c.call).exec s.word).2)
    (hresult : ((program c.call).exec s.word).1 = c.result) :
    ∃ seen left word, Observed program w₀ (es ++ [e]) c seen left word ∧
      (loads = .current → writes (es.take c.invoked) <+: seen) := by
  have htake : (es ++ [e]).take (c.returned + 1) = es ++ [e] :=
    List.take_of_length_le (by simp [h.length, hreturned])
  refine ⟨writes es, writes (es ++ [e]), s.word, ⟨h.linked, hlinked, hresult, by rw [htake], ?_⟩,
    fun _ => writes_take es _⟩
  rw [htake, writes_append]
  rcases Event.completion?_eq_some.mp hc with ⟨w, rfl, hw⟩ | rfl
  · exact .inr ⟨w, hw, rfl, rfl⟩
  · exact .inl ⟨by simp, List.append_nil _⟩

theorem step (h : Views loads program w₀ es s) (hstep : Step loads program s e s') :
    Views loads program w₀ (es ++ [e]) s' := by
  have hlinked : Linked program w₀ (writes (es ++ [e])) s'.word := by
    rw [writes_append]
    exact h.linked.append hstep.linked
  cases hstep with
  | @invoke t c hlocal =>
    refine h.extend rfl rfl hlinked (fun v hv => .inr hv) (fun d i heq => ?_) (by simp)
      (by simp [Event.completion?])
    simp only [Local.started.injEq] at heq
    exact heq.2.ge
  | @load t c i body v hlocal hprog hsees =>
    refine h.extend rfl rfl hlinked (fun v hv => .inr hv) (by simp) (fun d j w readAt heq => ?_)
      (by simp [Event.completion?])
    simp only [Local.holding.injEq] at heq
    obtain ⟨rfl, rfl, rfl, rfl⟩ := heq
    obtain ⟨seen, hseen, hword, hcurrent⟩ := h.sees hsees
    refine ⟨h.started t _ _ hlocal, seen, hseen, hword, fun hloads => ?_⟩
    rw [hcurrent hloads]
    exact writes_take es _
  | @casFail t c i v readAt body next r hlocal hprog hbody =>
    refine h.extend rfl rfl hlinked (fun v hv => .inr hv) (by simp) (fun d j w readAt' heq => ?_)
      (by simp [Event.completion?])
    simp only [Local.holding.injEq] at heq
    obtain ⟨rfl, rfl, rfl, rfl⟩ := heq
    -- a failed exchange hands back the current word, whatever the first load was
    exact ⟨(h.holding t _ _ _ _ hlocal).1, writes es, List.prefix_rfl, h.linked,
      fun _ => writes_take es _⟩
  | @ret t c i r hlocal hprog =>
    refine h.extend rfl rfl hlinked (fun v hv => .inr hv) (by simp) (by simp) (fun d hd => ?_)
    obtain rfl : (⟨t, c, r, i, s.time, s.time⟩ : Completion T C R) = d := by
      simpa [Event.completion?] using hd
    exact ⟨h.started t c i hlocal, rfl, h.ends rfl rfl (by simpa [hprog, Program.exec] using hlinked)
      (by simp [hprog, Program.exec])⟩
  | @swap t c i next r hlocal hprog =>
    refine h.extend rfl rfl hlinked (fun v hv => ?_) (by simp) (by simp) (fun d hd => ?_)
    · simpa [State.move, State.store] using hv
    · obtain rfl : (⟨t, c, r, i, s.time, s.time⟩ : Completion T C R) = d := by
        simpa [Event.completion?] using hd
      exact ⟨h.started t c i hlocal, rfl, h.ends rfl rfl (by simpa [hprog, Program.exec] using hlinked)
        (by simp [hprog, Program.exec])⟩
  | @done t c i v readAt body r hlocal hprog hbody =>
    refine h.extend rfl rfl hlinked (fun v hv => .inr hv) (by simp) (by simp) (fun d hd => ?_)
    obtain rfl : (⟨t, c, r, i, readAt, s.time⟩ : Completion T C R) = d := by
      simpa [Event.completion?] using hd
    -- the call is decided by the value it holds, and leaves the word alone
    obtain ⟨hi, seen, hseen, hword, hcurrent⟩ := h.holding t c i v readAt hlocal
    have hexec : (program c).exec v = (r, v) := by simp [hprog, Program.exec, hbody]
    refine ⟨hi, rfl, seen, seen, v, ⟨hword, by rw [hexec]; exact hword, by rw [hexec], ?_,
      .inl ⟨by simp, rfl⟩⟩, hcurrent⟩
    rw [List.take_of_length_le (by simp [h.length]), writes_append]
    exact hseen.trans (List.prefix_append _ _)
  | @casOk t c i v readAt body next r hlocal hprog hbody heq =>
    refine h.extend rfl rfl hlinked (fun v hv => ?_) (by simp) (by simp) (fun d hd => ?_)
    · simpa [State.move, State.store] using hv
    · obtain rfl : (⟨t, c, r, i, s.time, s.time⟩ : Completion T C R) = d := by
        simpa [Event.completion?] using hd
      subst heq
      have hexec : (program c).exec s.word = (r, next) := by simp [hprog, Program.exec, hbody]
      exact ⟨(h.holding t c i _ readAt hlocal).1, rfl, h.ends rfl rfl (by rw [hexec]; exact hlinked)
        (by rw [hexec])⟩

end Views

variable [DecidableEq T] {loads : Loads} {program : C → Program W R} {w₀ : W} {s s' : State T C W}
  {es : List (Event T C W R)} {c d : Completion T C R}

theorem Run.views (h : Run loads program (State.start w₀) es s) : Views loads program w₀ es s := by
  induction h with
  | nil => exact Views.start loads program w₀
  | snoc _ hstep ih => exact ih.step hstep

/-- A completed call returned what it returns run in one piece at some place of the log. -/
theorem Run.observed (h : Run loads program (State.start w₀) es s) (hc : c ∈ completions es) :
    ∃ seen left word, Observed program w₀ es c seen left word ∧
      (loads = .current → writes (es.take c.invoked) <+: seen) :=
  (h.views.completed c hc).2.2

theorem Run.completed_invoked (h : Run loads program (State.start w₀) es s) (hc : c ∈ completions es) :
    c.call ∈ calls es := by
  obtain ⟨e, he, hcomp⟩ := List.mem_filterMap.mp hc
  obtain ⟨pre, post, rfl⟩ := List.append_of_mem he
  have hinvoke : .invoke c.thread c.call ∈ pre := h.completion_invoked rfl hcomp
  exact List.mem_filterMap.mpr ⟨_, List.mem_append_left _ hinvoke, rfl⟩

/-- A run up to any of its steps is a run. -/
theorem Run.split {es' : List (Event T C W R)} (h : Run loads program s (es ++ es') s') :
    ∃ mid, Run loads program s es mid ∧ Run loads program mid es' s' := by
  -- a run grows at its end, so take the steps of the second part off from there
  induction es' using List.reverseRecOn generalizing s' with
  | nil =>
    rw [List.append_nil] at h
    exact ⟨s', h, .nil⟩
  | append_singleton es' e ih =>
    rw [← List.append_assoc] at h
    generalize hall : es ++ es' ++ [e] = all at h
    cases h with
    | nil => simp at hall
    | @snoc pre before e' _ hrun hstep =>
      obtain ⟨rfl, hlast⟩ := List.append_inj' hall rfl
      obtain rfl : e = e' := by simpa using hlast
      obtain ⟨mid, hleft, hright⟩ := ih hrun
      exact ⟨mid, hleft, hright.snoc hstep⟩

/-- The log up to a step holds only writes that took effect before it. -/
theorem Run.effect_lt (h : Run loads program (State.start w₀) es s) {i : ℕ} {w : Write T C W R}
    (hw : w ∈ writes (es.take i)) : w.effect < i := by
  obtain ⟨mid, hupto, -⟩ := ((List.take_append_drop i es).symm ▸ h).split
  have hlt := (hupto.positions.written w hw).2.1
  have hlength := hupto.positions.length
  rw [List.length_take] at hlength
  omega

/-- What was in the log at a step no later than a write's is before that write. -/
theorem Run.writes_take_before (h : Run loads program (State.start w₀) es s)
    {pre post : List (Write T C W R)} {w : Write T C W R} (hsplit : writes es = pre ++ w :: post) {i : ℕ}
    (hi : i ≤ w.effect) : writes (es.take i) <+: pre := by
  have hpre : pre ++ [w] <+: writes es := by
    rw [hsplit]
    exact ⟨post, by simp⟩
  have hnot : ¬pre ++ [w] <+: writes (es.take i) := by
    intro hle
    have hlt := h.effect_lt (hle.subset (List.mem_append_right pre (List.mem_singleton.mpr rfl)))
    omega
  rcases List.prefix_or_prefix_of_prefix (writes_take es i) hpre with hle | hle
  · rcases List.prefix_concat_iff.mp hle with hall | hpre
    · exact absurd (hall ▸ List.prefix_rfl) hnot
    · exact hpre
  · exact absurd hle hnot

/-- From the word a call left to the one a write found that was invoked after it returned, whatever
their first loads were. -/
theorem Run.before_write (h : Run loads program (State.start w₀) es s) (hc : c ∈ completions es)
    {pre post : List (Write T C W R)} {w : Write T C W R} (hsplit : writes es = pre ++ w :: post)
    (horder : c.returned < w.invoked) :
    ∃ word ws, ((program c.call).exec word).1 = c.result ∧
      Linked program ((program c.call).exec word).2 ws w.before ∧ ws ⊆ pre := by
  obtain ⟨seen, left, word, hobserved, -⟩ := h.observed hc
  have hinvoked := (h.positions.written w (by simp [hsplit])).1
  have hleft : left <+: pre := hobserved.within.trans (h.writes_take_before hsplit (by omega))
  obtain ⟨mid, hpre, hbefore, -⟩ := (hsplit ▸ h.linked).split
  rw [← hbefore] at hpre
  obtain ⟨ws, rfl, hws⟩ := hobserved.reaches hleft hpre
  exact ⟨word, ws, hobserved.result, hws, List.subset_append_right _ _⟩

/-- From the word a call left to the word at the end of the run. -/
theorem Run.after_call (h : Run loads program (State.start w₀) es s) (hc : c ∈ completions es) :
    ∃ word ws, ((program c.call).exec word).1 = c.result ∧
      Linked program ((program c.call).exec word).2 ws s.word ∧ ws ⊆ writes es := by
  obtain ⟨seen, left, word, hobserved, -⟩ := h.observed hc
  obtain ⟨ws, hsplit, hws⟩ := hobserved.reaches (hobserved.within.trans (writes_take _ _)) h.linked
  exact ⟨word, ws, hobserved.result, hws, hsplit ▸ List.subset_append_right _ _⟩

end CasLoop

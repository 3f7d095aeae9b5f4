import Mathlib

/-!
# Calls on one atomic word

Any number of threads call operations on a single shared word.  A call either returns without
looking at the word, swaps it, or loads it and runs a compare-exchange loop: the loop body decides,
from the value the thread believes is current, to return or to try a compare-exchange.  A failed
exchange, real or spurious, hands back the current word and the body runs again on it.

One transition of the machine is one atomic step of one thread.  Steps are numbered; a completed
call carries the numbers of its invocation, of the step it took effect at and of its return.
-/

namespace CasLoop

/-- What the loop body does with the value it holds. -/
inductive Attempt (W R : Type*)
  | done (result : R)
  | cas (next : W) (result : R)

inductive Program (W R : Type*)
  | ret (result : R)
  | loop (body : W → Attempt W R)
  | swap (next : W) (result : R)

variable {T C W R S : Type*}

def Attempt.map (f : R → S) : Attempt W R → Attempt W S
  | .done r => .done (f r)
  | .cas next r => .cas next (f r)

def Program.map (f : R → S) : Program W R → Program W S
  | .ret r => .ret (f r)
  | .loop body => .loop fun current => (body current).map f
  | .swap next r => .swap next (f r)

def Attempt.result : Attempt W R → R
  | .done r => r
  | .cas _ r => r

/-- Every result the call can return, whatever values it sees. -/
def Program.Always (P : R → Prop) : Program W R → Prop
  | .ret r => P r
  | .loop body => ∀ v, P (body v).result
  | .swap _ r => P r

/-- The call run in one piece: its result and the word it leaves. -/
def Program.exec : Program W R → W → R × W
  | .ret r, word => (r, word)
  | .loop body, word =>
    match body word with
    | .done r => (r, word)
    | .cas next r => (r, next)
  | .swap next r, _ => (r, next)

/-- The result and the new word of a call that writes when run on `word`. -/
def Program.write? : Program W R → W → Option (R × W)
  | .ret _, _ => none
  | .loop body, word =>
    match body word with
    | .done _ => none
    | .cas next r => some (r, next)
  | .swap next r, _ => some (r, next)

/-- Calls run one after the other, each in one piece. -/
def execAll {C : Type*} (program : C → Program W R) : W → List C → List (C × R) × W
  | word, [] => ([], word)
  | word, c :: cs =>
    let step := (program c).exec word
    let rest := execAll program step.2 cs
    ((c, step.1) :: rest.1, rest.2)

/-- The results of a call that writes nothing: an early return, or what the body says of some value. -/
def Program.Declines (p : Program W R) (r : R) : Prop :=
  p = .ret r ∨ ∃ body v, p = .loop body ∧ body v = .done r

theorem Program.always_map {P : S → Prop} {f : R → S} {p : Program W R} :
    (p.map f).Always P ↔ p.Always fun r => P (f r) := by
  cases p with
  | ret r => exact Iff.rfl
  | swap next r => exact Iff.rfl
  | loop body =>
    apply forall_congr'
    intro v
    cases hbody : body v <;> simp [hbody, Attempt.map, Attempt.result]

theorem Program.exec_map (f : R → S) (p : Program W R) (word : W) :
    (p.map f).exec word = (f (p.exec word).1, (p.exec word).2) := by
  cases p with
  | ret r => rfl
  | swap next r => rfl
  | loop body =>
    simp only [Program.map, Program.exec]
    cases body word <;> rfl

theorem Program.exec_cases (p : Program W R) (word : W) :
    (∃ r next, p.write? word = some (r, next) ∧ p.exec word = (r, next)) ∨
      ∃ r, p.Declines r ∧ p.exec word = (r, word) := by
  cases p with
  | ret r => exact .inr ⟨r, .inl rfl, rfl⟩
  | swap next r => exact .inl ⟨r, next, rfl, rfl⟩
  | loop body =>
    cases hbody : body word with
    | done r => exact .inr ⟨r, .inr ⟨body, word, rfl, hbody⟩, by simp [Program.exec, hbody]⟩
    | cas next r =>
      exact .inl ⟨r, next, by simp [Program.write?, hbody], by simp [Program.exec, hbody]⟩

/-- Words related by what every call preserves answer every sequence of calls alike. -/
theorem execAll_related {program : C → Program W R} (Related : W → W → Prop) {cs : List C}
    (hstep : ∀ c ∈ cs, ∀ v v', Related v v' → ((program c).exec v).1 = ((program c).exec v').1 ∧
      Related ((program c).exec v).2 ((program c).exec v').2) {v v' : W} (h : Related v v') :
    (execAll program v cs).1 = (execAll program v' cs).1 := by
  induction cs generalizing v v' with
  | nil => rfl
  | cons c cs ih =>
    obtain ⟨hresult, hword⟩ := hstep c (List.mem_cons_self ..) v v' h
    have hrest := ih (fun d hd => hstep d (List.mem_cons_of_mem _ hd)) hword
    simp only [execAll, hresult, hrest]

/-- A loop whose body cannot tell two words apart. -/
theorem Program.exec_loop_congr {body : W → Attempt W R} {v v' : W} (h : body v = body v') :
    ((Program.loop body).exec v).1 = ((Program.loop body).exec v').1 ∧
      (((Program.loop body).exec v).2 = ((Program.loop body).exec v').2 ∨
        ((Program.loop body).exec v).2 = v ∧ ((Program.loop body).exec v').2 = v') := by
  unfold Program.exec
  dsimp only
  rw [h]
  cases body v' with
  | done r => exact ⟨rfl, .inr ⟨rfl, rfl⟩⟩
  | cas next r => exact ⟨rfl, .inl rfl⟩

/-- Where a thread is: between calls, before its first access, or holding a value it read. -/
inductive Local (C W : Type*)
  | idle
  | started (call : C) (invoked : ℕ)
  | holding (call : C) (invoked : ℕ) (current : W) (readAt : ℕ)

/-- The call a thread is in. -/
def Local.call? : Local C W → Option C
  | .idle => none
  | .started c _ => some c
  | .holding c _ _ _ => some c

structure State (T C W : Type*) where
  word : W
  past : List W
  threads : T → Local C W
  time : ℕ

structure Completion (T C R : Type*) where
  thread : T
  call : C
  result : R
  invoked : ℕ
  effect : ℕ
  returned : ℕ

structure Write (T C W R : Type*) extends Completion T C R where
  before : W
  after : W

inductive Event (T C W R : Type*)
  | invoke (t : T) (c : C)
  | load (t : T) (value : W)
  | casFail (t : T) (invoked : ℕ) (expected actual : W)
  | commit (w : Write T C W R)
  | finish (c : Completion T C R)

/-- What the first load of a call may return: the word, or also any earlier value of it. -/
inductive Loads
  | current
  | anyEarlier

def Loads.Sees : Loads → State T C W → W → Prop
  | .current, s, v => v = s.word
  | .anyEarlier, s, v => v = s.word ∨ v ∈ s.past

namespace State

def start (word : W) : State T C W where
  word := word
  past := []
  threads := fun _ => .idle
  time := 0

def store (s : State T C W) (next : W) : State T C W :=
  { s with word := next, past := s.word :: s.past }

/-- Thread `t` takes the next step and ends it at `l`. -/
def move [DecidableEq T] (s : State T C W) (t : T) (l : Local C W) : State T C W :=
  { s with threads := Function.update s.threads t l, time := s.time + 1 }

/-- After one thread moved, a thread is where that one went or where it was. -/
theorem update_eq_cases [DecidableEq T] {threads : T → Local C W} {t u : T} {l l' : Local C W}
    (h : Function.update threads t l u = l') : u = t ∧ l = l' ∨ u ≠ t ∧ threads u = l' := by
  by_cases hut : u = t
  · rw [hut, Function.update_self] at h
    exact .inl ⟨hut, h⟩
  · rw [Function.update_of_ne hut] at h
    exact .inr ⟨hut, h⟩

section Projections

variable (s : State T C W) (next : W)

@[simp] theorem start_word : (start next : State T C W).word = next := rfl
@[simp] theorem store_word : (s.store next).word = next := rfl
@[simp] theorem store_threads : (s.store next).threads = s.threads := rfl
@[simp] theorem store_time : (s.store next).time = s.time := rfl

variable [DecidableEq T] (t : T) (l : Local C W)

@[simp] theorem move_word : (s.move t l).word = s.word := rfl
@[simp] theorem move_threads : (s.move t l).threads = Function.update s.threads t l := rfl
@[simp] theorem move_time : (s.move t l).time = s.time + 1 := rfl

end Projections

end State

variable [DecidableEq T]

inductive Step (loads : Loads) (program : C → Program W R) :
    State T C W → Event T C W R → State T C W → Prop
  | invoke {s t c} (hlocal : s.threads t = .idle) :
      Step loads program s (.invoke t c) (s.move t (.started c s.time))
  -- the call never looks at the word: it takes effect as it returns
  | ret {s t c i r} (hlocal : s.threads t = .started c i) (hprog : program c = .ret r) :
      Step loads program s (.finish ⟨t, c, r, i, s.time, s.time⟩) (s.move t .idle)
  | swap {s t c i next r} (hlocal : s.threads t = .started c i)
      (hprog : program c = .swap next r) :
      Step loads program s (.commit ⟨⟨t, c, r, i, s.time, s.time⟩, s.word, next⟩)
        ((s.store next).move t .idle)
  -- only the first load may be stale
  | load {s t c i body v} (hlocal : s.threads t = .started c i)
      (hprog : program c = .loop body) (hsees : loads.Sees s v) :
      Step loads program s (.load t v) (s.move t (.holding c i v s.time))
  -- a call that writes nothing took effect at the read that decided it
  | done {s t c i v readAt body r} (hlocal : s.threads t = .holding c i v readAt)
      (hprog : program c = .loop body) (hbody : body v = .done r) :
      Step loads program s (.finish ⟨t, c, r, i, readAt, s.time⟩) (s.move t .idle)
  -- whether the word is another one or the exchange fails spuriously
  | casFail {s t c i v readAt body next r} (hlocal : s.threads t = .holding c i v readAt)
      (hprog : program c = .loop body) (hbody : body v = .cas next r) :
      Step loads program s (.casFail t i v s.word) (s.move t (.holding c i s.word s.time))
  | casOk {s t c i v readAt body next r} (hlocal : s.threads t = .holding c i v readAt)
      (hprog : program c = .loop body) (hbody : body v = .cas next r) (heq : v = s.word) :
      Step loads program s (.commit ⟨⟨t, c, r, i, s.time, s.time⟩, s.word, next⟩)
        ((s.store next).move t .idle)

inductive Run (loads : Loads) (program : C → Program W R) :
    State T C W → List (Event T C W R) → State T C W → Prop
  | nil {s} : Run loads program s [] s
  | snoc {s es s' e s''} (hrun : Run loads program s es s') (hstep : Step loads program s' e s'') :
      Run loads program s (es ++ [e]) s''

/-! ## What a run did -/

def Event.write? : Event T C W R → Option (Write T C W R)
  | .commit w => some w
  | _ => none

def Event.completion? : Event T C W R → Option (Completion T C R)
  | .commit w => some w.toCompletion
  | .finish c => some c
  | _ => none

def Event.call? : Event T C W R → Option C
  | .invoke _ c => some c
  | _ => none

/-- The calls that were invoked, in order. -/
def calls (es : List (Event T C W R)) : List C := es.filterMap Event.call?

/-- The successful writes, in the order they reached the word. -/
def writes (es : List (Event T C W R)) : List (Write T C W R) := es.filterMap Event.write?

/-- The completed calls, in the order they returned. -/
def completions (es : List (Event T C W R)) : List (Completion T C R) :=
  es.filterMap Event.completion?

omit [DecidableEq T] in
theorem writes_append (es es' : List (Event T C W R)) : writes (es ++ es') = writes es ++ writes es' :=
  List.filterMap_append ..

omit [DecidableEq T] in
theorem completions_append (es es' : List (Event T C W R)) :
    completions (es ++ es') = completions es ++ completions es' :=
  List.filterMap_append ..

omit [DecidableEq T] in
theorem Event.write?_eq_some {e : Event T C W R} {w : Write T C W R} :
    e.write? = some w ↔ e = .commit w := by
  cases e <;> simp [Event.write?]

omit [DecidableEq T] in
theorem mem_writes {es : List (Event T C W R)} {w : Write T C W R} :
    w ∈ writes es ↔ .commit w ∈ es := by
  simp only [writes, List.mem_filterMap, Event.write?_eq_some, exists_eq_right]

/-- Each write is what its call does atomically to the word the write before it left. -/
def Linked (program : C → Program W R) : W → List (Write T C W R) → W → Prop
  | word, [], word' => word = word'
  | word, w :: ws, word' => w.before = word ∧
      (program w.call).write? w.before = some (w.result, w.after) ∧ Linked program w.after ws word'

section Linked

omit [DecidableEq T]

variable {program : C → Program W R}

theorem Linked.append {word word' word'' : W} {ws ws' : List (Write T C W R)}
    (h : Linked program word ws word') (h' : Linked program word' ws' word'') :
    Linked program word (ws ++ ws') word'' := by
  induction ws generalizing word with
  | nil =>
    have heq : word = word' := h
    exact heq ▸ h'
  | cons w ws ih => exact ⟨h.1, h.2.1, ih h.2.2⟩

theorem Linked.split {word word'' : W} {ws ws' : List (Write T C W R)}
    (h : Linked program word (ws ++ ws') word'') :
    ∃ word', Linked program word ws word' ∧ Linked program word' ws' word'' := by
  induction ws generalizing word with
  | nil => exact ⟨word, rfl, h⟩
  | cons w ws ih =>
    obtain ⟨word', hleft, hright⟩ := ih h.2.2
    exact ⟨word', ⟨h.1, h.2.1, hleft⟩, hright⟩

theorem Linked.write?_of_mem {word word' : W} {ws : List (Write T C W R)}
    (h : Linked program word ws word') {w : Write T C W R} (hw : w ∈ ws) :
    (program w.call).write? w.before = some (w.result, w.after) := by
  induction ws generalizing word with
  | nil => cases hw
  | cons w' ws ih =>
    rcases List.mem_cons.mp hw with rfl | hmem
    · exact h.2.1
    · exact ih h.2.2 hmem

theorem Linked.getLast?_after {word word' : W} {ws : List (Write T C W R)}
    (h : Linked program word ws word') {w : Write T C W R} (hw : ws.getLast? = some w) :
    w.after = word' := by
  obtain ⟨pre, rfl⟩ := List.getLast?_eq_some_iff.mp hw
  obtain ⟨mid, -, -, -, hlast⟩ := h.split
  exact hlast

theorem Linked.of_infix {word word' : W} {ws mid : List (Write T C W R)}
    (h : Linked program word ws word') (hmid : mid <:+: ws) :
    ∃ from' to', Linked program from' mid to' := by
  obtain ⟨pre, post, rfl⟩ := hmid
  obtain ⟨to', hleft, -⟩ := h.split
  obtain ⟨from', -, hright⟩ := hleft.split
  exact ⟨from', to', hright⟩

/-- A quantity every write preserves is preserved by a whole log of them. -/
theorem Linked.invariant (Inv : List (Write T C W R) → W → Prop) {word word' : W}
    {ws : List (Write T C W R)} (h : Linked program word ws word') (hinit : Inv [] word)
    (hpres : ∀ pre w post, ws = pre ++ w :: post → Inv pre w.before →
      (program w.call).write? w.before = some (w.result, w.after) → Inv (pre ++ [w]) w.after) :
    Inv ws word' := by
  induction ws using List.reverseRecOn generalizing word' with
  | nil =>
    have heq : word = word' := h
    exact heq ▸ hinit
  | append_singleton ws w ih =>
    obtain ⟨mid, hleft, hw, hwrite, hlast⟩ := h.split
    have hmid : Inv ws mid := by
      refine ih hleft fun pre w' post hsplit hinv => hpres pre w' (post ++ [w]) ?_ hinv
      rw [hsplit, List.append_assoc, List.cons_append]
    have hafter : w.after = word' := hlast
    exact hafter ▸ hpres ws w [] rfl (hw ▸ hmid) hwrite

end Linked

section Runs

variable {loads : Loads} {program : C → Program W R} {s s' s'' : State T C W}
  {es es' : List (Event T C W R)} {e : Event T C W R} {c : Completion T C R}

theorem Run.append (h : Run loads program s es s') (h' : Run loads program s' es' s'') :
    Run loads program s (es ++ es') s'' := by
  induction h' with
  | nil => simpa using h
  | snoc _ hstep ih =>
    rw [← List.append_assoc]
    exact ih.snoc hstep

theorem Step.linked (h : Step loads program s e s') :
    Linked program s.word (writes [e]) s'.word := by
  cases h with
  | invoke hlocal => rfl
  | ret hlocal hprog => rfl
  | swap hlocal hprog => exact ⟨rfl, by simp [hprog, Program.write?], rfl⟩
  | load hlocal hprog hsees => rfl
  | done hlocal hprog hbody => rfl
  | casFail hlocal hprog hbody => rfl
  | casOk hlocal hprog hbody heq =>
    subst heq
    exact ⟨rfl, by simp [hprog, Program.write?, hbody], rfl⟩

theorem Run.linked (h : Run loads program s es s') :
    Linked program s.word (writes es) s'.word := by
  induction h with
  | nil => rfl
  | snoc _ hstep ih =>
    rw [writes_append]
    exact ih.append hstep.linked

/-- What a step does to the threads: one of them moves, and into no call but its own or the one it
invokes. -/
theorem Step.moves (h : Step loads program s e s') :
    ∃ t l, s'.threads = Function.update s.threads t l ∧
      ∀ c, l.call? = some c → (s.threads t).call? = some c ∨ e = .invoke t c := by
  cases h with
  | @invoke t c hlocal => exact ⟨t, _, rfl, fun c' hc => .inr (by simp_all [Local.call?])⟩
  | @ret t c i r hlocal hprog => exact ⟨t, _, rfl, fun c' hc => by simp [Local.call?] at hc⟩
  | @swap t c i next r hlocal hprog => exact ⟨t, _, rfl, fun c' hc => by simp [Local.call?] at hc⟩
  | @load t c i body v hlocal hprog hsees =>
    exact ⟨t, _, rfl, fun c' hc => .inl (by rw [hlocal]; exact hc)⟩
  | @done t c i v readAt body r hlocal hprog hbody =>
    exact ⟨t, _, rfl, fun c' hc => by simp [Local.call?] at hc⟩
  | @casFail t c i v readAt body next r hlocal hprog hbody =>
    exact ⟨t, _, rfl, fun c' hc => .inl (by rw [hlocal]; exact hc)⟩
  | @casOk t c i v readAt body next r hlocal hprog hbody heq =>
    exact ⟨t, _, rfl, fun c' hc => by simp [Local.call?] at hc⟩

/-- A completed call was the one its thread was in, and leaves the thread idle. -/
theorem Step.completes (h : Step loads program s e s') {c : Completion T C R}
    (hc : e.completion? = some c) :
    (s.threads c.thread).call? = some c.call ∧
      s'.threads = Function.update s.threads c.thread .idle := by
  cases h with
  | invoke hlocal => simp [Event.completion?] at hc
  | load hlocal hprog hsees => simp [Event.completion?] at hc
  | casFail hlocal hprog hbody => simp [Event.completion?] at hc
  | ret hlocal hprog =>
    simp only [Event.completion?, Option.some.injEq] at hc
    subst hc
    simp [hlocal, Local.call?]
  | swap hlocal hprog =>
    simp only [Event.completion?, Option.some.injEq] at hc
    subst hc
    simp [hlocal, Local.call?]
  | done hlocal hprog hbody =>
    simp only [Event.completion?, Option.some.injEq] at hc
    subst hc
    simp [hlocal, Local.call?]
  | casOk hlocal hprog hbody heq =>
    simp only [Event.completion?, Option.some.injEq] at hc
    subst hc
    simp [hlocal, Local.call?]

/-- A completed call returned something its program returns. -/
theorem Step.returns (h : Step loads program s e s') {c : Completion T C R}
    (hc : e.completion? = some c) {P : R → Prop} (halways : (program c.call).Always P) :
    P c.result := by
  cases h with
  | invoke hlocal => simp [Event.completion?] at hc
  | load hlocal hprog hsees => simp [Event.completion?] at hc
  | casFail hlocal hprog hbody => simp [Event.completion?] at hc
  | ret hlocal hprog =>
    simp only [Event.completion?, Option.some.injEq] at hc
    subst hc
    rw [hprog] at halways
    exact halways
  | swap hlocal hprog =>
    simp only [Event.completion?, Option.some.injEq] at hc
    subst hc
    rw [hprog] at halways
    exact halways
  | @done t c i v readAt body r hlocal hprog hbody =>
    simp only [Event.completion?, Option.some.injEq] at hc
    subst hc
    rw [hprog] at halways
    have hresult := halways v
    rwa [hbody] at hresult
  | @casOk t c i v readAt body next r hlocal hprog hbody heq =>
    simp only [Event.completion?, Option.some.injEq] at hc
    subst hc
    rw [hprog] at halways
    have hresult := halways v
    rwa [hbody] at hresult

theorem Step.finishes (h : Step loads program s (.finish c) s') :
    (program c.call).Declines c.result := by
  cases h with
  | ret hlocal hprog => exact .inl hprog
  | done hlocal hprog hbody => exact .inr ⟨_, _, hprog, hbody⟩

omit [DecidableEq T] in
theorem mem_completions : c ∈ completions es ↔
    (∃ w ∈ writes es, w.toCompletion = c) ∨ .finish c ∈ es := by
  simp only [completions, writes, List.mem_filterMap]
  constructor
  · rintro ⟨e, he, hc⟩
    cases e with
    | commit w => exact .inl ⟨w, ⟨_, he, rfl⟩, by simpa [Event.completion?] using hc⟩
    | finish c' =>
      obtain rfl : c' = c := by simpa [Event.completion?] using hc
      exact .inr he
    | invoke | load | casFail => simp [Event.completion?] at hc
  · rintro (⟨w, ⟨e, he, hw⟩, rfl⟩ | hfinish)
    · rw [Event.write?_eq_some] at hw
      subst hw
      exact ⟨_, he, rfl⟩
    · exact ⟨_, hfinish, rfl⟩

theorem Run.finishes (h : Run loads program s es s') (hc : .finish c ∈ es) :
    (program c.call).Declines c.result := by
  induction h with
  | nil => cases hc
  | snoc _ hstep ih =>
    rcases List.mem_append.mp hc with hold | hnew
    · exact ih hold
    · obtain rfl := List.mem_singleton.mp hnew
      exact hstep.finishes

theorem Run.returns (h : Run loads program s es s') (hc : c ∈ completions es) {P : R → Prop}
    (halways : (program c.call).Always P) : P c.result := by
  induction h with
  | nil => cases hc
  | @snoc es s' e s'' _ hstep ih =>
    rw [completions_append, List.mem_append] at hc
    rcases hc with hold | hnew
    · exact ih hold
    · obtain ⟨e', he', hcomp⟩ := List.mem_filterMap.mp hnew
      obtain rfl := List.mem_singleton.mp he'
      exact hstep.returns hcomp halways

/-- A thread inside a call has invoked it. -/
theorem Run.busy_invoked {w₀ : W} (h : Run loads program (State.start w₀) es s) {t : T} {c : C}
    (hbusy : (s.threads t).call? = some c) : .invoke t c ∈ es := by
  induction h with
  | nil => simp [State.start, Local.call?] at hbusy
  | snoc hrun hstep ih =>
    rw [List.mem_append]
    obtain ⟨u, l, hthreads, hcall⟩ := hstep.moves
    rw [hthreads] at hbusy
    by_cases htu : t = u
    · subst htu
      rw [Function.update_self] at hbusy
      rcases hcall c hbusy with hold | rfl
      · exact .inl (ih hold)
      · exact .inr (by simp)
    · rw [Function.update_of_ne htu] at hbusy
      exact .inl (ih hbusy)

/-- Whatever completes was invoked before. -/
theorem Run.completion_invoked {w₀ : W} (h : Run loads program (State.start w₀) es s)
    {pre post : List (Event T C W R)} (hsplit : es = pre ++ e :: post) {c : Completion T C R}
    (hc : e.completion? = some c) : .invoke c.thread c.call ∈ pre := by
  induction h generalizing post with
  | nil => simp at hsplit
  -- the completing step is the last one of the run, or it belongs to a shorter run
  | @snoc es s' e' s'' hrun hstep ih =>
    rcases List.eq_nil_or_concat post with rfl | ⟨post', last, rfl⟩
    · obtain ⟨rfl, hlast⟩ := List.append_inj' hsplit rfl
      obtain rfl : e' = e := by simpa using hlast
      exact hrun.busy_invoked (hstep.completes hc).1
    · rw [List.concat_eq_append, ← List.cons_append, ← List.append_assoc] at hsplit
      exact ih (List.append_inj' hsplit rfl).1

theorem Run.write_invoked {w₀ : W} (h : Run loads program (State.start w₀) es s)
    {w : Write T C W R} (hw : w ∈ writes es) : w.call ∈ calls es := by
  obtain ⟨pre, post, rfl⟩ := List.append_of_mem (mem_writes.mp hw)
  have hinvoke : .invoke w.thread w.call ∈ pre := h.completion_invoked rfl rfl
  exact List.mem_filterMap.mpr ⟨_, List.mem_append_left _ hinvoke, rfl⟩

end Runs

end CasLoop

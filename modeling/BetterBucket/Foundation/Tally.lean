import BetterBucket.Foundation.MachineWords
import BetterBucket.Foundation.Schedule

/-!
# Counters bumped on the way out

A call that is through with the shared word may still owe additions to counters beside it.  Each
addition is an atomic step of its own and wraps around the counter's width, and the thread returns
only after the last one: in between, any other thread may step.
-/

namespace CasLoop

open MachineWords

variable {T C W R K : Type*}

def Event.thread : Event T C W R → T
  | .invoke t _ => t
  | .load t _ => t
  | .casFail t _ _ _ => t
  | .commit w => w.thread
  | .finish c => c.thread

deriving instance DecidableEq for Local

/-- The machine with its counters and, for each thread, the additions it still has to make. -/
structure Tallied (T C W K : Type*) where
  shared : State T C W
  counters : K → ℕ
  owed : T → List (K × ℕ)

inductive TallyEvent (T C W R K : Type*)
  | access (e : Event T C W R)
  | add (t : T) (counter : K) (amount : ℕ)

namespace Tallied

def start (word : W) : Tallied T C W K where
  shared := .start word
  counters := fun _ => 0
  owed := fun _ => []

/-- No call is in progress. -/
def Quiet (s : Tallied T C W K) : Prop := ∀ t, s.shared.threads t = .idle ∧ s.owed t = []

instance [Fintype T] [DecidableEq C] [DecidableEq W] [DecidableEq K] (s : Tallied T C W K) :
    Decidable s.Quiet := Fintype.decidableForallFintype

variable [DecidableEq T]

/-- What the threads owe after the event: one that completes a call owes its exit's additions. -/
def owe (updates : R → List (K × ℕ)) (s : Tallied T C W K) (e : Event T C W R) : T → List (K × ℕ) :=
  match e.completion? with
  | none => s.owed
  | some c => Function.update s.owed c.thread (updates c.result)

def access (updates : R → List (K × ℕ)) (s : Tallied T C W K) (e : Event T C W R)
    (shared : State T C W) : Tallied T C W K :=
  { s with shared := shared, owed := s.owe updates e }

variable [DecidableEq K]

/-- `fetch_add` by a thread that owes `rest` after it. -/
def add (s : Tallied T C W K) (t : T) (counter : K) (amount : ℕ) (rest : List (K × ℕ)) :
    Tallied T C W K :=
  { s with
    counters := Function.update s.counters counter (wrappingAdd 64 (s.counters counter) amount)
    owed := Function.update s.owed t rest }

end Tallied

variable [DecidableEq T] [DecidableEq K]

inductive TallyStep (loads : Loads) (program : C → Program W R) (updates : R → List (K × ℕ)) :
    Tallied T C W K → TallyEvent T C W R K → Tallied T C W K → Prop
  -- a thread that still owes an addition is inside its last call
  | access {s e shared} (hclear : s.owed e.thread = [])
      (hstep : Step loads program s.shared e shared) :
      TallyStep loads program updates s (.access e) (s.access updates e shared)
  | add {s t counter amount rest} (howed : s.owed t = (counter, amount) :: rest) :
      TallyStep loads program updates s (.add t counter amount) (s.add t counter amount rest)

inductive TallyRun (loads : Loads) (program : C → Program W R) (updates : R → List (K × ℕ)) :
    Tallied T C W K → List (TallyEvent T C W R K) → Tallied T C W K → Prop
  | nil {s} : TallyRun loads program updates s [] s
  | snoc {s es s' e s''} (hrun : TallyRun loads program updates s es s')
      (hstep : TallyStep loads program updates s' e s'') :
      TallyRun loads program updates s (es ++ [e]) s''

/-! ## The word under the counters -/

def TallyEvent.access? : TallyEvent T C W R K → Option (Event T C W R)
  | .access e => some e
  | .add _ _ _ => none

/-- What a run does to the word. -/
def accesses (es : List (TallyEvent T C W R K)) : List (Event T C W R) :=
  es.filterMap TallyEvent.access?

section Projection

variable {loads : Loads} {program : C → Program W R} {updates : R → List (K × ℕ)}
  {s s' : Tallied T C W K} {es : List (TallyEvent T C W R K)} {e : TallyEvent T C W R K}

omit [DecidableEq T] [DecidableEq K] in
theorem accesses_append (es es' : List (TallyEvent T C W R K)) :
    accesses (es ++ es') = accesses es ++ accesses es' := List.filterMap_append ..

omit [DecidableEq T] [DecidableEq K] in
theorem accesses_add (es : List (TallyEvent T C W R K)) (t : T) (counter : K) (amount : ℕ) :
    accesses (es ++ [.add t counter amount]) = accesses es := by
  rw [accesses_append]
  exact List.append_nil _

/-- The counters never influence the word. -/
theorem TallyRun.run (h : TallyRun loads program updates s es s') :
    Run loads program s.shared (accesses es) s'.shared := by
  induction h with
  | nil => exact .nil
  | snoc _ hstep ih =>
    cases hstep with
    | access hclear hstep =>
      rw [accesses_append]
      exact ih.snoc hstep
    | add howed =>
      rw [accesses_add]
      exact ih

end Projection

/-! ## Every addition is made once

Additions carry the thread that makes them.  Thread by thread, the additions of the calls completed
so far are those already made followed by those still owed. -/

abbrev Addition (T K : Type*) := T × K × ℕ

def TallyEvent.addition? : TallyEvent T C W R K → Option (Addition T K)
  | .access _ => none
  | .add t counter amount => some (t, counter, amount)

/-- The additions made so far. -/
def additions (es : List (TallyEvent T C W R K)) : List (Addition T K) :=
  es.filterMap TallyEvent.addition?

/-- The additions the completed calls are due. -/
def dues (updates : R → List (K × ℕ)) (cs : List (Completion T C R)) : List (Addition T K) :=
  cs.flatMap fun c => (updates c.result).map (Prod.mk c.thread)

/-- The amounts added to one counter. -/
def sumAt (counter : K) (as : List (Addition T K)) : ℕ :=
  ((as.filter fun a => a.2.1 = counter).map fun a => a.2.2).sum

/-- The amounts one call's updates add to a counter. -/
def amountAt (counter : K) (l : List (K × ℕ)) : ℕ :=
  ((l.filter fun a => a.1 = counter).map Prod.snd).sum

structure Settled (updates : R → List (K × ℕ)) (es : List (TallyEvent T C W R K))
    (s : Tallied T C W K) : Prop where
  owed : ∀ t, (dues updates (completions (accesses es))).filter (fun a => a.1 = t) =
    (additions es).filter (fun a => a.1 = t) ++ (s.owed t).map (Prod.mk t)
  counters : ∀ counter, s.counters counter = sumAt counter (additions es) % 2 ^ 64

section Settled

variable {loads : Loads} {program : C → Program W R} {updates : R → List (K × ℕ)}
  {s s' : Tallied T C W K} {es : List (TallyEvent T C W R K)} {e : TallyEvent T C W R K}

omit [DecidableEq T] [DecidableEq K] in
theorem additions_append (es es' : List (TallyEvent T C W R K)) :
    (additions (es ++ es') : List (Addition T K)) = additions es ++ additions es' :=
  List.filterMap_append ..

omit [DecidableEq T] [DecidableEq K] in
theorem additions_access (es : List (TallyEvent T C W R K)) (e : Event T C W R) :
    additions (es ++ [.access e]) = additions es := by
  rw [additions_append]
  exact List.append_nil _

omit [DecidableEq T] in
theorem sumAt_append (counter : K) (as as' : List (Addition T K)) :
    sumAt counter (as ++ as') = sumAt counter as + sumAt counter as' := by
  simp only [sumAt, List.filter_append, List.map_append, List.sum_append]

omit [DecidableEq T] in
theorem sumAt_perm {as as' : List (Addition T K)} (h : as.Perm as') (counter : K) :
    sumAt counter as = sumAt counter as' := ((h.filter _).map _).sum_eq

omit [DecidableEq T] [DecidableEq K] in
theorem dues_append (cs cs' : List (Completion T C R)) :
    dues updates (cs ++ cs') = dues updates cs ++ dues updates cs' := List.flatMap_append ..

omit [DecidableEq T] in
/-- What is due to a counter, call by call. -/
theorem sumAt_dues (counter : K) (cs : List (Completion T C R)) :
    sumAt counter (dues updates cs) = (cs.map fun c => amountAt counter (updates c.result)).sum := by
  induction cs with
  | nil => rfl
  | cons c cs ih =>
    have hone : sumAt counter ((updates c.result).map (Prod.mk c.thread)) =
        amountAt counter (updates c.result) := by
      simp only [sumAt, amountAt, List.filter_map, List.map_map]
      rfl
    have hcons : dues updates (c :: cs) = (updates c.result).map (Prod.mk c.thread) ++ dues updates cs :=
      List.flatMap_cons
    rw [hcons, sumAt_append, hone, ih, List.map_cons, List.sum_cons]

omit [DecidableEq K] in
/-- Among the additions of one thread, only its own count. -/
theorem filter_map_thread (t u : T) (l : List (K × ℕ)) :
    (l.map (Prod.mk u)).filter (fun a => a.1 = t) = if u = t then l.map (Prod.mk t) else [] := by
  split
  · rename_i h
    rw [h, List.filter_eq_self.mpr]
    intro a ha
    obtain ⟨b, -, rfl⟩ := List.mem_map.mp ha
    exact decide_eq_true rfl
  · rename_i h
    rw [List.filter_eq_nil_iff]
    intro a ha
    obtain ⟨b, -, rfl⟩ := List.mem_map.mp ha
    simpa using h

theorem Settled.start (word : W) :
    Settled (T := T) (C := C) updates [] (Tallied.start word) where
  owed _ := rfl
  counters _ := rfl

/-- The exit of a call adds its updates to what is due and to what its thread owes. -/
theorem Settled.access (h : Settled updates es s) {e : Event T C W R} {shared : State T C W}
    (hclear : s.owed e.thread = []) :
    Settled updates (es ++ [.access e]) (s.access updates e shared) where
  counters counter := by
    rw [additions_access]
    exact h.counters counter
  owed t := by
    have haccess : accesses (es ++ [.access e]) = accesses es ++ [e] := accesses_append _ _
    rw [additions_access, haccess, completions_append, dues_append, List.filter_append, h.owed t]
    show _ = _ ++ (s.owe updates e t).map (Prod.mk t)
    cases hc : e.completion? with
    | none => simp [completions, hc, dues, Tallied.owe]
    | some c =>
      have hthread : c.thread = e.thread := by
        cases e with
        | commit w => simp_all [Event.completion?, Event.thread]
        | finish c => simp_all [Event.completion?, Event.thread]
        | invoke | load | casFail => simp [Event.completion?] at hc
      have hdue : dues updates (completions [e]) = (updates c.result).map (Prod.mk c.thread) := by
        simp [completions, hc, dues]
      rw [hdue, filter_map_thread, Tallied.owe, hc]
      by_cases ht : c.thread = t
      · -- the thread owed nothing before
        subst ht
        simp [hthread ▸ hclear]
      · simp [if_neg ht, Function.update_of_ne (Ne.symm ht)]

/-- An addition is moved from what its thread owes to what was made. -/
theorem Settled.add (h : Settled updates es s) {t : T} {counter : K} {amount : ℕ}
    {rest : List (K × ℕ)} (howed : s.owed t = (counter, amount) :: rest) :
    Settled updates (es ++ [.add t counter amount]) (s.add t counter amount rest) where
  counters k := by
    rw [additions_append, sumAt_append]
    by_cases hk : k = counter
    · subst hk
      simp [Tallied.add, wrappingAdd, h.counters k, additions, TallyEvent.addition?, sumAt]
    · have hother : Function.update s.counters counter
          (wrappingAdd 64 (s.counters counter) amount) k = s.counters k := Function.update_of_ne hk _ _
      simpa [Tallied.add, hother, additions, TallyEvent.addition?, sumAt, Ne.symm hk] using h.counters k
  owed u := by
    have hmade : additions (es ++ [.add t counter amount]) =
        additions es ++ [(t, counter, amount)] := additions_append _ _
    rw [accesses_add, hmade, h.owed u, List.filter_append, List.append_assoc]
    congr 1
    show _ = _ ++ (Function.update s.owed t rest u).map (Prod.mk u)
    by_cases hu : u = t
    · subst hu
      simp [howed]
    · simp [Function.update_of_ne hu, Ne.symm hu]

theorem Settled.step (h : Settled updates es s) (hstep : TallyStep loads program updates s e s') :
    Settled updates (es ++ [e]) s' := by
  cases hstep with
  | access hclear hstep => exact h.access hclear
  | add howed => exact h.add howed

theorem TallyRun.settled {word : W} (h : TallyRun loads program updates (.start word) es s) :
    Settled updates es s := by
  induction h with
  | nil => exact .start word
  | snoc _ hstep ih => exact ih.step hstep

/-- Lists of additions that agree thread by thread hold the same additions. -/
theorem perm_of_filter_eq {as as' : List (Addition T K)}
    (h : ∀ t, as.filter (fun a => a.1 = t) = as'.filter (fun a => a.1 = t)) : as.Perm as' := by
  rw [List.perm_iff_count]
  intro a
  have hcount : ∀ l : List (Addition T K), (l.filter fun b => b.1 = a.1).count a = l.count a :=
    fun l => List.count_filter (by simp)
  rw [← hcount as, ← hcount as', h a.1]

/-- With no call in progress, each counter holds what all completed calls were due to add to it. -/
theorem TallyRun.counters_of_quiet {word : W}
    (h : TallyRun loads program updates (.start word) es s) (hquiet : s.Quiet) (counter : K) :
    s.counters counter =
      ((completions (accesses es)).map fun c => amountAt counter (updates c.result)).sum % 2 ^ 64 := by
  have hsettled := h.settled
  have hperm : (dues updates (completions (accesses es))).Perm (additions es) := by
    apply perm_of_filter_eq
    intro t
    rw [hsettled.owed t, (hquiet t).2, List.map_nil, List.append_nil]
  rw [hsettled.counters counter, ← sumAt_perm hperm, sumAt_dues]

end Settled

/-! ## Running a schedule -/

inductive TallyMove (T C : Type*)
  | access (m : Move T C)
  /-- the next addition the thread owes -/
  | bump (t : T)

def Move.thread : Move T C → T
  | .call t _ => t
  | .advance t => t
  | .spurious t => t

variable [DecidableEq W]

def Tallied.step? (program : C → Program W R) (updates : R → List (K × ℕ)) (s : Tallied T C W K) :
    TallyMove T C → Option (TallyEvent T C W R K × Tallied T C W K)
  | .access m =>
    match s.owed m.thread with
    | [] => (s.shared.step? program m).map fun next => (.access next.1, s.access updates next.1 next.2)
    | _ :: _ => none
  | .bump t =>
    match s.owed t with
    | [] => none
    | (counter, amount) :: rest => some (.add t counter amount, s.add t counter amount rest)

def Tallied.play (program : C → Program W R) (updates : R → List (K × ℕ)) (s : Tallied T C W K) :
    List (TallyMove T C) → List (TallyEvent T C W R K) × Tallied T C W K
  | [] => ([], s)
  | m :: ms =>
    match s.step? program updates m with
    | none => s.play program updates ms
    | some (e, s') => (e :: (s'.play program updates ms).1, (s'.play program updates ms).2)

section Play

variable {program : C → Program W R} {updates : R → List (K × ℕ)} {s s' : Tallied T C W K}
  {e : TallyEvent T C W R K}

omit [DecidableEq K] in
/-- A move is made by its own thread. -/
theorem State.step?_thread {m : Move T C} {s s' : State T C W} {e : Event T C W R}
    (h : s.step? program m = some (e, s')) : e.thread = m.thread := by
  cases m with
  | call t c =>
    simp only [State.step?] at h
    split at h
    · cases h
      rfl
    · cases h
  | advance t =>
    simp only [State.step?] at h
    repeat' split at h
    all_goals cases h
    all_goals rfl
  | spurious t =>
    simp only [State.step?] at h
    repeat' split at h
    all_goals cases h
    all_goals rfl

theorem Tallied.step?_sound {m : TallyMove T C} (h : s.step? program updates m = some (e, s')) :
    TallyStep .current program updates s e s' := by
  cases m with
  | access m =>
    simp only [Tallied.step?] at h
    split at h
    · rename_i hclear
      obtain ⟨⟨event, shared⟩, hstep, heq⟩ := Option.map_eq_some_iff.mp h
      cases heq
      rw [← State.step?_thread hstep] at hclear
      exact .access hclear (State.step?_sound hstep)
    · cases h
  | bump t =>
    simp only [Tallied.step?] at h
    split at h
    · cases h
    · rename_i howed
      cases h
      exact .add howed

omit [DecidableEq W] in
theorem TallyRun.cons {loads : Loads} {es : List (TallyEvent T C W R K)} {s'' : Tallied T C W K}
    (hstep : TallyStep loads program updates s e s')
    (h : TallyRun loads program updates s' es s'') :
    TallyRun loads program updates s (e :: es) s'' := by
  induction h with
  | nil => exact TallyRun.nil.snoc hstep
  | snoc _ hlast ih => exact ih.snoc hlast

theorem Tallied.play_run (program : C → Program W R) (updates : R → List (K × ℕ))
    (s : Tallied T C W K) (moves : List (TallyMove T C)) :
    TallyRun .current program updates s (s.play program updates moves).1
      (s.play program updates moves).2 := by
  induction moves generalizing s with
  | nil => exact .nil
  | cons m ms ih =>
    simp only [Tallied.play]
    split
    · exact ih s
    · rename_i e s' hstep
      exact (ih s').cons (Tallied.step?_sound hstep)

end Play

end CasLoop

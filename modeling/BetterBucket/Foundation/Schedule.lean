import BetterBucket.Foundation.CasLoop

/-!
# Running a schedule

The machine as a function of a schedule: who moves next, and which exchanges fail spuriously.  What
it computes is a run (`State.play_run`), so a concrete interleaving is checked by evaluating it.
-/

namespace CasLoop

variable {T C W R : Type*}

inductive Move (T C : Type*)
  | call (t : T) (c : C)
  | advance (t : T)
  /-- an exchange that fails although the word is the expected one -/
  | spurious (t : T)

variable [DecidableEq T] [DecidableEq W]

/-- The step a move makes, if the thread can make it. -/
def State.step? (program : C → Program W R) (s : State T C W) :
    Move T C → Option (Event T C W R × State T C W)
  | .call t c =>
    match s.threads t with
    | .idle => some (.invoke t c, s.move t (.started c s.time))
    | _ => none
  | .advance t =>
    match s.threads t with
    | .idle => none
    | .started c i =>
      match program c with
      | .ret r => some (.finish ⟨t, c, r, i, s.time, s.time⟩, s.move t .idle)
      | .swap next r =>
        some (.commit ⟨⟨t, c, r, i, s.time, s.time⟩, s.word, next⟩, (s.store next).move t .idle)
      -- a schedule always loads the current word
      | .loop _ => some (.load t s.word, s.move t (.holding c i s.word s.time))
    | .holding c i v readAt =>
      match program c with
      | .loop body =>
        match body v with
        | .done r => some (.finish ⟨t, c, r, i, readAt, s.time⟩, s.move t .idle)
        | .cas next r =>
          if v = s.word then
            some (.commit ⟨⟨t, c, r, i, s.time, s.time⟩, s.word, next⟩, (s.store next).move t .idle)
          else some (.casFail t i v s.word, s.move t (.holding c i s.word s.time))
      | _ => none
  | .spurious t =>
    match s.threads t with
    | .holding c i v _ =>
      match program c with
      | .loop body =>
        match body v with
        | .cas _ _ => some (.casFail t i v s.word, s.move t (.holding c i s.word s.time))
        | .done _ => none
      | _ => none
    | _ => none

/-- Plays the moves in order; a move its thread cannot make is skipped. -/
def State.play (program : C → Program W R) (s : State T C W) :
    List (Move T C) → List (Event T C W R) × State T C W
  | [] => ([], s)
  | m :: ms =>
    match s.step? program m with
    | none => s.play program ms
    | some (e, s') => (e :: (s'.play program ms).1, (s'.play program ms).2)

variable {program : C → Program W R} {s s' : State T C W} {e : Event T C W R}

theorem State.step?_sound {m : Move T C} (h : s.step? program m = some (e, s')) :
    Step .current program s e s' := by
  cases m with
  | call t c =>
    simp only [State.step?] at h
    split at h
    · rename_i hlocal
      cases h
      exact .invoke hlocal
    · cases h
  | advance t =>
    simp only [State.step?] at h
    split at h
    · cases h
    · rename_i c i hlocal
      split at h
      · rename_i r hprog
        cases h
        exact .ret hlocal hprog
      · rename_i next r hprog
        cases h
        exact .swap hlocal hprog
      · rename_i body hprog
        cases h
        exact .load hlocal hprog rfl
    · rename_i c i v readAt hlocal
      split at h
      · rename_i body hprog
        split at h
        · rename_i r hbody
          cases h
          exact .done hlocal hprog hbody
        · rename_i next r hbody
          split at h
          · rename_i heq
            cases h
            exact .casOk hlocal hprog hbody heq
          · cases h
            exact .casFail hlocal hprog hbody
      · cases h
  | spurious t =>
    simp only [State.step?] at h
    split at h
    · rename_i c i v readAt hlocal
      split at h
      · rename_i body hprog
        split at h
        · rename_i next r hbody
          cases h
          exact .casFail hlocal hprog hbody
        · cases h
      · cases h
    · cases h

omit [DecidableEq W] in
theorem Run.single {loads : Loads} (h : Step loads program s e s') : Run loads program s [e] s' :=
  Run.snoc .nil h

theorem State.play_run (program : C → Program W R) (s : State T C W) (moves : List (Move T C)) :
    Run .current program s (s.play program moves).1 (s.play program moves).2 := by
  induction moves generalizing s with
  | nil => exact .nil
  | cons m ms ih =>
    simp only [State.play]
    split
    · exact ih s
    · rename_i e s' hstep
      exact (Run.single (State.step?_sound hstep)).append (ih s')

omit [DecidableEq W] in
/-- The current word is among what a load may return. -/
theorem Step.anyEarlier (h : Step .current program s e s') : Step .anyEarlier program s e s' := by
  cases h with
  | invoke hlocal => exact .invoke hlocal
  | ret hlocal hprog => exact .ret hlocal hprog
  | swap hlocal hprog => exact .swap hlocal hprog
  | load hlocal hprog hsees => exact .load hlocal hprog (.inl hsees)
  | done hlocal hprog hbody => exact .done hlocal hprog hbody
  | casFail hlocal hprog hbody => exact .casFail hlocal hprog hbody
  | casOk hlocal hprog hbody heq => exact .casOk hlocal hprog hbody heq

omit [DecidableEq W] in
theorem Run.anyEarlier {es : List (Event T C W R)} (h : Run .current program s es s') :
    Run .anyEarlier program s es s' := by
  induction h with
  | nil => exact .nil
  | snoc _ hstep ih => exact ih.snoc hstep.anyEarlier

end CasLoop

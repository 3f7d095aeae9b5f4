import BetterBucket.Foundation.CasLoop
import BetterBucket.Foundation.Descent
import BetterBucket.Foundation.MachineWords

/-!
# Arithmetic that traps

The plain operators of a program on fixed-width words, without a result where the exact one does
not fit the width, where a shift is by the width or more or drops a set bit, and where a divisor is
zero.  A program written in them that has a result has computed exactly what it says.
-/

namespace Trapping

open MachineWords CasLoop

def add (w a b : ℕ) : Option ℕ := tryFrom w (a + b)

def sub (a b : ℕ) : Option ℕ := if b ≤ a then some (a - b) else none

def mul (w a b : ℕ) : Option ℕ := tryFrom w (a * b)

/-- A left shift that drops no set bit. -/
def shl (w a k : ℕ) : Option ℕ := if k < w then tryFrom w (a * 2 ^ k) else none

def shr (w a k : ℕ) : Option ℕ := if k < w then some (a / 2 ^ k) else none

def divCeil (a b : ℕ) : Option ℕ := if b = 0 then none else some (a ⌈/⌉ b)

/-- Conversion into a signed `w`-bit word. -/
def signed (w : ℕ) (x : ℤ) : Option ℤ :=
  let bound : ℕ := 2 ^ (w - 1)
  if -bound ≤ x ∧ x < bound then some x else none

def addSigned (w : ℕ) (a b : ℤ) : Option ℤ := signed w (a + b)

def subSigned (w : ℕ) (a b : ℤ) : Option ℤ := signed w (a - b)

/-- `while !guard(m) { m -= 1 }`, without a result when `fuel` iterations are not enough. -/
def countDown (w : ℕ) (guard : ℤ → Option Bool) : ℕ → ℤ → Option ℤ
  | 0, _ => none
  | fuel + 1, m => do
    if ← guard m then some m
    else
      let next ← subSigned w m 1
      countDown w guard fuel next

/-- A step that does not trap hands on its result. -/
theorem bind_eq {α β : Type} {x : Option α} {a : α} (h : x = some a) (f : α → Option β) :
    x >>= f = f a := by
  rw [h, Option.bind_eq_bind, Option.bind_some]

section Rules

variable {w a b k : ℕ}

theorem add_eq (h : a + b < 2 ^ w) : add w a b = some (a + b) :=
  tryFrom_of_le ((lt_two_pow_iff_le_maxValue w _).mp h)

theorem sub_eq (h : b ≤ a) : sub a b = some (a - b) := if_pos h

theorem mul_eq (h : a * b < 2 ^ w) : mul w a b = some (a * b) :=
  tryFrom_of_le ((lt_two_pow_iff_le_maxValue w _).mp h)

theorem shl_eq (hk : k < w) (h : a * 2 ^ k < 2 ^ w) : shl w a k = some (shiftLeft w a k) := by
  rw [shl, if_pos hk, shiftLeft_eq_mul hk h]
  exact tryFrom_of_le ((lt_two_pow_iff_le_maxValue w _).mp h)

-- a bit lost, and a distance the hardware would reduce
example : shl 64 3 63 = none ∧ shl 64 0 64 = none := by decide +kernel

theorem shr_eq (hk : k < w) : shr w a k = some (shiftRight w a k) := by
  rw [shr, if_pos hk, shiftRight_eq_div hk]

theorem divCeil_eq (hb : 0 < b) : divCeil a b = some (a ⌈/⌉ b) := if_neg hb.ne'

theorem signed_eq {x : ℤ} (hlow : -(2 ^ (w - 1) : ℕ) ≤ x) (hhigh : x < (2 ^ (w - 1) : ℕ)) :
    signed w x = some x := if_pos ⟨hlow, hhigh⟩

theorem addSigned_eq {x y : ℤ} (hlow : -(2 ^ (w - 1) : ℕ) ≤ x + y) (hhigh : x + y < (2 ^ (w - 1) : ℕ)) :
    addSigned w x y = some (x + y) := signed_eq hlow hhigh

theorem subSigned_eq {x y : ℤ} (hlow : -(2 ^ (w - 1) : ℕ) ≤ x - y) (hhigh : x - y < (2 ^ (w - 1) : ℕ)) :
    subSigned w x y = some (x - y) := signed_eq hlow hhigh

/-- The loop ends, where the total one does, if it gets to an admissible value within the fuel and
its guard does not trap on the way there. -/
theorem countDown_eq {guard : ℤ → Option Bool} {exact : ℤ → Bool} {fuel : ℕ} {m goal : ℤ}
    (hgoal : exact goal) (hle : goal ≤ m) (hfuel : m - goal < fuel)
    (hguard : ∀ j, goal ≤ j → j ≤ m → guard j = some (exact j)) (hlow : -(2 ^ (w - 1) : ℕ) ≤ goal)
    (hhigh : m < (2 ^ (w - 1) : ℕ)) :
    countDown w guard fuel m = some (Descent.stepDown exact fuel m) := by
  induction fuel generalizing m with
  | zero =>
    rw [Nat.cast_zero] at hfuel
    omega
  | succ fuel ih =>
    rw [countDown, bind_eq (hguard m hle le_rfl), Descent.stepDown]
    by_cases hm : exact m
    · rw [if_pos hm, if_pos hm]
    · have hne : goal ≠ m := fun heq => hm (heq ▸ hgoal)
      rw [if_neg hm, if_neg hm, bind_eq (subSigned_eq (by omega) (by omega))]
      apply ih
      · omega
      · rw [Nat.cast_succ] at hfuel
        omega
      · intro j hj hjm
        exact hguard j hj (by omega)
      · omega

end Rules

/-! ## Calls that may trap -/

variable {W R S : Type*}

/-- A call on one atomic word whose loop body may trap. -/
inductive Guarded (W R : Type*)
  | ret (result : R)
  | loop (body : W → Option (Attempt W R))
  | swap (next : W) (result : R)

namespace Guarded

def map (f : R → S) : Guarded W R → Guarded W S
  | .ret r => .ret (f r)
  | .loop body => .loop fun current => (body current).map (Attempt.map f)
  | .swap next r => .swap next (f r)

/-- A call that traps on no value of the word. -/
def ofProgram : Program W R → Guarded W R
  | .ret r => .ret r
  | .loop body => .loop fun current => some (body current)
  | .swap next r => .swap next r

/-- A loop whose body never traps. -/
theorem loop_eq {body : W → Option (Attempt W R)} {exact : W → Attempt W R}
    (h : ∀ current, body current = some (exact current)) : loop body = ofProgram (.loop exact) :=
  congrArg loop (funext h)

theorem map_ofProgram (f : R → S) (p : Program W R) : (ofProgram p).map f = ofProgram (p.map f) := by
  cases p <;> rfl

end Guarded

end Trapping

import Mathlib

/-!
# Counting down to a guard

`while !guard(m) { m -= 1 }` on integers.  The loop is bounded by fuel; `stepDown_spec` says that it
stops at the largest admissible value whenever the fuel reaches one, so the bound is never felt.
-/

namespace Descent

def stepDown (guard : ℤ → Bool) : ℕ → ℤ → ℤ
  | 0, m => m
  | fuel + 1, m => if guard m then m else stepDown guard fuel (m - 1)

/-- The loop ends on the largest value at or below its start that the guard admits. -/
theorem stepDown_spec {guard : ℤ → Bool} {fuel : ℕ} {m goal : ℤ} (hgoal : guard goal)
    (hle : goal ≤ m) (hfuel : m - goal ≤ fuel) :
    guard (stepDown guard fuel m) ∧ goal ≤ stepDown guard fuel m ∧ stepDown guard fuel m ≤ m ∧
      ∀ j, stepDown guard fuel m < j → j ≤ m → ¬ guard j := by
  induction fuel generalizing m with
  | zero =>
    have hm : m = goal := by
      simp only [Nat.cast_zero] at hfuel
      omega
    subst hm
    exact ⟨hgoal, le_refl _, le_refl _, fun j hlt hle => by simp only [stepDown] at hlt; omega⟩
  | succ fuel ih =>
    by_cases hm : guard m
    · simp only [stepDown, if_pos hm]
      exact ⟨hm, hle, le_refl _, fun j hlt hle => by omega⟩
    · have hne : goal ≠ m := fun h => hm (h ▸ hgoal)
      have hrec := ih (m := m - 1) (by omega) (by push_cast at hfuel; omega)
      simp only [stepDown, if_neg hm]
      refine ⟨hrec.1, hrec.2.1, by omega, fun j hlt hjm => ?_⟩
      -- either the value just rejected, or one the remaining iterations rejected
      rcases eq_or_lt_of_le hjm with rfl | hjlt
      · exact hm
      · exact hrec.2.2.2 j hlt (by omega)

end Descent

import Mathlib

/-!
# Fixed-width unsigned arithmetic

A machine word of `w` bits is a natural number at most `maxValue w`.  The operations below are the
ones a program spells out when a plain operator would not do: saturating, checked, and the shifts,
which drop what leaves the word and take their distance modulo the width.
-/

namespace MachineWords

/-- The largest value of a `w`-bit word. -/
def maxValue (w : ℕ) : ℕ := 2 ^ w - 1

def saturatingAdd (w a b : ℕ) : ℕ := min (a + b) (maxValue w)

def saturatingMul (w a b : ℕ) : ℕ := min (a * b) (maxValue w)

def wrappingAdd (w a b : ℕ) : ℕ := (a + b) % 2 ^ w

def checkedAdd (w a b : ℕ) : Option ℕ :=
  if a + b ≤ maxValue w then some (a + b) else none

/-- Narrowing conversion into a `w`-bit word. -/
def tryFrom (w x : ℕ) : Option ℕ :=
  if x ≤ maxValue w then some x else none

def shiftLeft (w a k : ℕ) : ℕ := (a <<< (k % w)) % 2 ^ w

def shiftRight (w a k : ℕ) : ℕ := a >>> (k % w)

/-- Significant bits: the width less the leading zeros, `0` for zero. -/
def bitLength (x : ℕ) : ℕ := if x = 0 then 0 else Nat.log2 x + 1

def leadingZeros (w x : ℕ) : ℕ := w - bitLength x

theorem lt_two_pow_iff_le_maxValue (w x : ℕ) : x < 2 ^ w ↔ x ≤ maxValue w := by
  have hpos : 0 < 2 ^ w := by positivity
  unfold maxValue
  omega

@[simp]
theorem checkedAdd_eq_some {w a b c : ℕ} :
    checkedAdd w a b = some c ↔ a + b = c ∧ a + b ≤ maxValue w := by
  unfold checkedAdd
  split
  · rename_i h
    simp [h]
  · rename_i h
    simp [h]

theorem tryFrom_of_le {w x : ℕ} (h : x ≤ maxValue w) : tryFrom w x = some x := if_pos h

/-- A conversion that falls back to the largest value is a saturating one. -/
theorem tryFrom_getD_maxValue (w x : ℕ) : (tryFrom w x).getD (maxValue w) = min x (maxValue w) := by
  unfold tryFrom
  split
  · rename_i h
    rw [Option.getD_some, min_eq_left h]
  · rename_i h
    rw [Option.getD_none, min_eq_right (by omega)]

theorem saturatingAdd_of_le {w a b : ℕ} (h : a + b ≤ maxValue w) : saturatingAdd w a b = a + b :=
  min_eq_left h

/-- A left shift that loses no bit is a multiplication. -/
theorem shiftLeft_eq_mul {w a k : ℕ} (hk : k < w) (h : a * 2 ^ k < 2 ^ w) :
    shiftLeft w a k = a * 2 ^ k := by
  rw [shiftLeft, Nat.mod_eq_of_lt hk, Nat.shiftLeft_eq, Nat.mod_eq_of_lt h]

theorem shiftRight_eq_div {w a k : ℕ} (hk : k < w) : shiftRight w a k = a / 2 ^ k := by
  rw [shiftRight, Nat.mod_eq_of_lt hk, Nat.shiftRight_eq_div_pow]

theorem bitLength_pos {x : ℕ} (hx : 0 < x) : 0 < bitLength x := by
  rw [bitLength, if_neg hx.ne']
  omega

theorem lt_two_pow_bitLength (x : ℕ) : x < 2 ^ bitLength x := by
  unfold bitLength
  split
  · rename_i h
    simp [h]
  · exact Nat.lt_log2_self

theorem two_pow_bitLength_pred_le {x : ℕ} (hx : 0 < x) : 2 ^ (bitLength x - 1) ≤ x := by
  rw [bitLength, if_neg hx.ne']
  exact Nat.log2_self_le hx.ne'

theorem bitLength_le_of_lt {x k : ℕ} (h : x < 2 ^ k) : bitLength x ≤ k := by
  by_contra hlt
  have hpos : 0 < x := by
    by_contra hx
    have hzero : x = 0 := by omega
    simp [bitLength, hzero] at hlt
  have hle : 2 ^ k ≤ 2 ^ (bitLength x - 1) := Nat.pow_le_pow_right (by omega) (by omega)
  have := two_pow_bitLength_pred_le hpos
  omega

/-- The bit length brackets a number between two powers of two. -/
theorem lt_two_zpow_bitLength (x : ℕ) : (x : ℚ) < 2 ^ (bitLength x : ℤ) := by
  rw [zpow_natCast]
  exact_mod_cast lt_two_pow_bitLength x

theorem two_zpow_bitLength_pred_le {x : ℕ} (hx : 0 < x) : (2 : ℚ) ^ ((bitLength x : ℤ) - 1) ≤ x := by
  have hpos := bitLength_pos hx
  have hcast : (bitLength x : ℤ) - 1 = ((bitLength x - 1 : ℕ) : ℤ) := by omega
  rw [hcast, zpow_natCast]
  exact_mod_cast two_pow_bitLength_pred_le hx

end MachineWords

import Mathlib

/-!
# Fixed-point clocks

A tick counter is converted to units at `rate / 2 ^ frac` units per tick, rounded down.  The clock
built on it starts at `origin`, stops counting ticks at `horizon` and stops altogether at `limit`.

The conversion is superadditive (rounding an interval never exceeds the difference of its rounded
ends) and at most one unit short of additive; `due` is its inverse in the sense of `le_read_iff`.
-/

namespace ScaledClock

def scaled (frac rate ticks : ℕ) : ℕ := ticks * rate / 2 ^ frac

/-- Units per tick as an exact rational. -/
def speed (frac rate : ℕ) : ℚ := rate / 2 ^ frac

theorem scaled_mono {frac rate a b : ℕ} (h : a ≤ b) : scaled frac rate a ≤ scaled frac rate b :=
  Nat.div_le_div_right (Nat.mul_le_mul_right rate h)

theorem scaled_add_le (frac rate a b : ℕ) :
    scaled frac rate a + scaled frac rate b ≤ scaled frac rate (a + b) := by
  unfold scaled
  rw [Nat.add_mul]
  exact Nat.div_add_div_le_add_div

theorem scaled_le_mul_speed (frac rate a : ℕ) : (scaled frac rate a : ℚ) ≤ a * speed frac rate := by
  have hdiv : scaled frac rate a * 2 ^ frac ≤ a * rate := Nat.div_mul_le_self _ _
  have hcast : (scaled frac rate a : ℚ) * 2 ^ frac ≤ a * rate := by exact_mod_cast hdiv
  have hpow : (0 : ℚ) < 2 ^ frac := by positivity
  calc (scaled frac rate a : ℚ) ≤ a * rate / 2 ^ frac := (le_div_iff₀ hpow).mpr hcast
    _ = a * speed frac rate := by rw [speed, mul_div_assoc]

theorem mul_speed_lt_scaled_add_one (frac rate a : ℕ) :
    a * speed frac rate < scaled frac rate a + 1 := by
  have hdiv : a * rate < (scaled frac rate a + 1) * 2 ^ frac :=
    (Nat.div_lt_iff_lt_mul (by positivity)).mp (Nat.lt_succ_self _)
  have hcast : (a : ℚ) * rate < (scaled frac rate a + 1) * 2 ^ frac := by exact_mod_cast hdiv
  have hpow : (0 : ℚ) < 2 ^ frac := by positivity
  rw [speed, ← mul_div_assoc]
  exact (div_lt_iff₀ hpow).mpr hcast

/-- A reading rounded down is below `x + 1` exactly when it was below the next whole unit. -/
theorem scaled_lt_add_one_iff (frac rate a : ℕ) (x : ℚ) :
    (scaled frac rate a : ℚ) < x + 1 ↔ a * speed frac rate < ⌈x⌉ + 1 := by
  have hfloor : ⌊(a : ℚ) * speed frac rate⌋ = scaled frac rate a := by
    rw [Int.floor_eq_iff]
    exact ⟨by exact_mod_cast scaled_le_mul_speed frac rate a,
      by exact_mod_cast mul_speed_lt_scaled_add_one frac rate a⟩
  have hceil : (scaled frac rate a : ℚ) < x + 1 ↔ (scaled frac rate a : ℤ) - 1 < ⌈x⌉ := by
    rw [Int.lt_ceil, ← sub_lt_iff_lt_add]
    push_cast
    rfl
  have hlt : (a : ℚ) * speed frac rate < ⌈x⌉ + 1 ↔ ⌊(a : ℚ) * speed frac rate⌋ < ⌈x⌉ + 1 := by
    rw [Int.floor_lt]
    push_cast
    rfl
  rw [hceil, hlt, hfloor]
  omega

/-- Rounding down twice costs less than one unit. -/
theorem scaled_sub_lt (frac rate a b : ℕ) :
    (scaled frac rate b : ℚ) - scaled frac rate a < (b - a) * speed frac rate + 1 := by
  have hb := scaled_le_mul_speed frac rate b
  have ha := mul_speed_lt_scaled_add_one frac rate a
  linarith

structure Clock where
  frac : ℕ
  rate : ℕ
  origin : ℕ
  horizon : ℕ
  limit : ℕ

namespace Clock

variable (c : Clock)

def read (ticks : ℕ) : ℕ :=
  min (c.origin + scaled c.frac c.rate (min ticks c.horizon)) c.limit

/-- The first tick at which the clock shows `target`, were there no horizon. -/
def due (target : ℕ) : ℕ := ((target - c.origin) * 2 ^ c.frac) ⌈/⌉ c.rate

/-- Neither the tick counter nor the clock has stopped at `ticks`. -/
def InRange (ticks : ℕ) : Prop :=
  ticks ≤ c.horizon ∧ c.origin + scaled c.frac c.rate ticks ≤ c.limit

theorem read_le_limit (ticks : ℕ) : c.read ticks ≤ c.limit := min_le_right _ _

theorem origin_le_read (h : c.origin ≤ c.limit) (ticks : ℕ) : c.origin ≤ c.read ticks :=
  le_min (Nat.le_add_right _ _) h

theorem read_mono {a b : ℕ} (h : a ≤ b) : c.read a ≤ c.read b := by
  have hticks : min a c.horizon ≤ min b c.horizon := min_le_min_right _ h
  exact min_le_min_right _ (Nat.add_le_add_left (scaled_mono hticks) _)

theorem read_min_horizon (ticks : ℕ) : c.read (min ticks c.horizon) = c.read ticks := by
  unfold read
  rw [min_assoc, min_self]

theorem read_of_inRange {ticks : ℕ} (h : c.InRange ticks) :
    c.read ticks = c.origin + scaled c.frac c.rate ticks := by
  rw [read, min_eq_left h.1, min_eq_left h.2]

theorem inRange_of_le {a b : ℕ} (h : c.InRange b) (hab : a ≤ b) : c.InRange a :=
  ⟨hab.trans h.1, (Nat.add_le_add_left (scaled_mono hab) _).trans h.2⟩

/-- The clock shows `target` exactly from the tick `due target` on. -/
theorem le_read_iff (hrate : 0 < c.rate) {target : ℕ} (htarget : target ≤ c.limit) (ticks : ℕ) :
    target ≤ c.read ticks ↔ c.due target ≤ min ticks c.horizon := by
  have hpow : 0 < 2 ^ c.frac := by positivity
  rw [due, ceilDiv_le_iff_le_mul hrate, read, le_min_iff, and_iff_left htarget, scaled,
    ← Nat.sub_le_iff_le_add', Nat.le_div_iff_mul_le hpow, Nat.mul_comm c.rate]

theorem due_mono (hrate : 0 < c.rate) {a b : ℕ} (hab : a ≤ b) : c.due a ≤ c.due b := by
  have hoffset : (a - c.origin) * 2 ^ c.frac ≤ (b - c.origin) * 2 ^ c.frac :=
    Nat.mul_le_mul_right _ (Nat.sub_le_sub_right hab _)
  rw [due, ceilDiv_le_iff_le_mul hrate]
  exact hoffset.trans ((ceilDiv_le_iff_le_mul hrate).mp le_rfl)

/-- Saturation only shortens an interval: its length in units is below the exact one plus one. -/
theorem read_sub_lt {a b : ℕ} (hab : a ≤ b) :
    (c.read b : ℚ) - c.read a <
      ((min b c.horizon : ℕ) - (min a c.horizon : ℕ)) * speed c.frac c.rate + 1 := by
  have hscaled := scaled_sub_lt c.frac c.rate (min a c.horizon) (min b c.horizon)
  have hticks : min a c.horizon ≤ min b c.horizon := min_le_min_right _ hab
  have hmono : scaled c.frac c.rate (min a c.horizon) ≤ scaled c.frac c.rate (min b c.horizon) :=
    scaled_mono hticks
  -- a reading that stopped at the limit only makes the difference smaller
  have hsat : c.read b - c.read a ≤
      scaled c.frac c.rate (min b c.horizon) - scaled c.frac c.rate (min a c.horizon) := by
    unfold read
    omega
  have hread : c.read a ≤ c.read b := c.read_mono hab
  have hcast : (c.read b : ℚ) - c.read a ≤
      (scaled c.frac c.rate (min b c.horizon) : ℚ) - scaled c.frac c.rate (min a c.horizon) := by
    rw [← Nat.cast_sub hread, ← Nat.cast_sub hmono]
    exact_mod_cast hsat
  linarith

/-- Before saturation no interval loses units: the clock gains at least what the interval rounds
down to, measured from any epoch. -/
theorem read_add_scaled_le {a b : ℕ} (h : c.InRange b) (hab : a ≤ b) :
    c.read a + scaled c.frac c.rate (b - a) ≤ c.read b := by
  have hsuper := scaled_add_le c.frac c.rate a (b - a)
  rw [Nat.add_sub_cancel' hab] at hsuper
  rw [c.read_of_inRange h, c.read_of_inRange (c.inRange_of_le h hab)]
  omega

end Clock

end ScaledClock

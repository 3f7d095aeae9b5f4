import Mathlib

/-!
# The exact token bucket

Tokens accrue continuously at a fixed rate and overflow at the capacity; charging more than there
is leaves a debt.  However often a level was capped on the way, it is bounded by one that never
was: what accrued since some epoch less what was spent since (`SpentSince`).
-/

structure TokenBucket (K : Type*) where
  capacity : K
  rate : K

namespace TokenBucket

structure Level (K : Type*) where
  tokens : K
  last : K

variable {K : Type*} [CommRing K] [LinearOrder K]

def tokensAt (b : TokenBucket K) (l : Level K) (now : K) : K :=
  min b.capacity (l.tokens + b.rate * (now - l.last))

def charge (b : TokenBucket K) (l : Level K) (now n : K) : Level K := ⟨b.tokensAt l now - n, now⟩

def credit (b : TokenBucket K) (l : Level K) (now n : K) : Level K :=
  ⟨min b.capacity (b.tokensAt l now + n), now⟩

def fill (b : TokenBucket K) (now : K) : Level K := ⟨b.capacity, now⟩

/-- The level is at most what accrued since `epoch`, less `spent`; a balance at `epoch` counts as
spent beforehand, with the opposite sign. -/
def SpentSince (b : TokenBucket K) (l : Level K) (epoch spent : K) : Prop :=
  l.tokens ≤ b.rate * (l.last - epoch) - spent

variable (b : TokenBucket K) (l : Level K) (now n : K)

@[simp] theorem credit_last : (b.credit l now n).last = now := rfl

theorem tokensAt_le_capacity : b.tokensAt l now ≤ b.capacity := min_le_left _ _

variable [IsStrictOrderedRing K] {b l} {epoch spent : K}

theorem SpentSince.tokensAt_le (h : b.SpentSince l epoch spent) :
    b.tokensAt l now ≤ b.rate * (now - epoch) - spent := by
  unfold SpentSince at h
  -- the cap only helps
  calc b.tokensAt l now ≤ l.tokens + b.rate * (now - l.last) := min_le_right _ _
    _ ≤ b.rate * (l.last - epoch) - spent + b.rate * (now - l.last) := by gcongr
    _ = b.rate * (now - epoch) - spent := by ring

theorem SpentSince.charge (h : b.SpentSince l epoch spent) :
    b.SpentSince (b.charge l now n) epoch (spent + n) := by
  have hle := h.tokensAt_le now
  unfold SpentSince TokenBucket.charge
  linarith

theorem SpentSince.credit (h : b.SpentSince l epoch spent) :
    b.SpentSince (b.credit l now n) epoch (spent - n) := by
  have hle := h.tokensAt_le now
  have hcredit : (b.credit l now n).tokens ≤ b.tokensAt l now + n := min_le_right _ _
  unfold SpentSince
  rw [credit_last]
  linarith

/-! ## A new epoch

A capacity bounds the level at every instant, so any instant may serve as the epoch. -/

theorem SpentSince.of_le (h : l.tokens ≤ -spent) (hlast : l.last = epoch) :
    b.SpentSince l epoch spent := by
  unfold SpentSince
  rw [hlast, sub_self, mul_zero]
  linarith

variable (b l)

theorem spentSince_charge : b.SpentSince (b.charge l now n) now (n - b.capacity) := by
  have hle := b.tokensAt_le_capacity l now
  refine .of_le ?_ rfl
  unfold charge
  linarith

theorem spentSince_credit : b.SpentSince (b.credit l now n) now (-b.capacity) := by
  refine .of_le ?_ rfl
  rw [neg_neg]
  exact min_le_left _ _

theorem spentSince_fill : b.SpentSince (b.fill now) now (-b.capacity) :=
  .of_le (neg_neg b.capacity).ge rfl

/-! ## From below

A level that is not full is also at least what accrued since an epoch less what was spent since: the
instant it was last full, or the one it was created at. -/

section Below

/-- The level is at least what accrued since `epoch`, less `spent`. -/
def HoldsSince (b : TokenBucket K) (l : Level K) (epoch spent : K) : Prop :=
  b.rate * (l.last - epoch) - spent ≤ l.tokens

variable {b l}

theorem tokensAt_of_full (hrate : 0 ≤ b.rate) (hfull : b.capacity ≤ l.tokens) (hnow : l.last ≤ now) :
    b.tokensAt l now = b.capacity := by
  have hgain : 0 ≤ b.rate * (now - l.last) := mul_nonneg hrate (sub_nonneg.mpr hnow)
  exact min_eq_left (by linarith)

/-- Short of the cap, nothing that accrued was lost. -/
theorem HoldsSince.le_tokensAt (h : b.HoldsSince l epoch spent) (hroom : b.tokensAt l now < b.capacity) :
    b.rate * (now - epoch) - spent ≤ b.tokensAt l now := by
  unfold HoldsSince at h
  have hlevel : b.tokensAt l now = l.tokens + b.rate * (now - l.last) := by
    unfold tokensAt at hroom ⊢
    rw [min_lt_iff, or_iff_right (lt_irrefl _)] at hroom
    exact min_eq_right hroom.le
  calc b.rate * (now - epoch) - spent
      = b.rate * (l.last - epoch) - spent + b.rate * (now - l.last) := by ring
    _ ≤ l.tokens + b.rate * (now - l.last) := by gcongr
    _ = b.tokensAt l now := hlevel.symm

theorem HoldsSince.charge (h : b.HoldsSince l epoch spent) (hroom : b.tokensAt l now < b.capacity) :
    b.HoldsSince (b.charge l now n) epoch (spent + n) := by
  have hle := h.le_tokensAt now hroom
  unfold HoldsSince TokenBucket.charge
  linarith

/-- A full level charged starts a new epoch. -/
theorem holdsSince_charge_of_full (hfull : b.tokensAt l now = b.capacity) :
    b.HoldsSince (b.charge l now n) now (n - b.capacity) := by
  unfold HoldsSince TokenBucket.charge
  rw [hfull, sub_self, mul_zero]
  linarith

theorem HoldsSince.credit (h : b.HoldsSince l epoch spent) (hroom : b.tokensAt l now + n < b.capacity)
    (hn : 0 ≤ n) : b.HoldsSince (b.credit l now n) epoch (spent - n) := by
  have hle := h.le_tokensAt now (by linarith)
  have hcredit : (b.credit l now n).tokens = b.tokensAt l now + n := min_eq_right hroom.le
  unfold HoldsSince
  rw [hcredit, credit_last]
  linarith

omit [IsStrictOrderedRing K] in
theorem credit_full (hfull : b.capacity ≤ b.tokensAt l now + n) :
    b.capacity ≤ (b.credit l now n).tokens := (min_eq_left hfull).ge

end Below

/-! ## Charging ahead of time -/

section Ahead

variable {b l} {later : K}

/-- Tokens taken now are missing later, unless what they made room for has accrued by then. -/
theorem tokensAt_sub_le_charge (hrate : 0 ≤ b.rate) (hlater : now ≤ later) (hn : 0 ≤ n) :
    b.tokensAt l later - n ≤ b.tokensAt (b.charge l now n) later := by
  have hgain : 0 ≤ b.rate * (later - now) := mul_nonneg hrate (sub_nonneg.mpr hlater)
  have hcap := b.tokensAt_le_capacity l later
  refine le_min (by linarith) ?_
  -- what is there later is at most what is there now and what accrues from now on
  have hsplit : b.tokensAt l later ≤ b.tokensAt l now + b.rate * (later - now) := by
    unfold tokensAt
    rw [min_add]
    refine le_min ((min_le_left _ _).trans (by linarith)) ((min_le_right _ _).trans (le_of_eq ?_))
    ring
  show b.tokensAt l later - n ≤ b.tokensAt l now - n + b.rate * (later - now)
  linarith

theorem tokensAt_charge_le (hroom : b.tokensAt l later < b.capacity) :
    b.tokensAt (b.charge l now n) later ≤ b.tokensAt l later - n := by
  have hlevel : b.tokensAt l later = l.tokens + b.rate * (later - l.last) := by
    unfold tokensAt at hroom ⊢
    rw [min_lt_iff, or_iff_right (lt_irrefl _)] at hroom
    exact min_eq_right hroom.le
  have hnow : b.tokensAt l now ≤ l.tokens + b.rate * (now - l.last) := min_le_right _ _
  calc b.tokensAt (b.charge l now n) later
      ≤ b.tokensAt l now - n + b.rate * (later - now) := min_le_right _ _
    _ ≤ l.tokens + b.rate * (now - l.last) - n + b.rate * (later - now) := by gcongr
    _ = b.tokensAt l later - n := by rw [hlevel]; ring

end Ahead

end TokenBucket

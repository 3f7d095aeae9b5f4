import BetterBucket.Protocol.Ledger

/-!
# Calls one at a time

What a call does when it is run in one piece: it leaves the word alone and takes nothing, or it
writes, and then it is an entry of the ledger.
-/

namespace BetterBucket.Core

open CasLoop MachineWords

/-- Units in the bucket at `t`. -/
def credit (self : Core) (word : ℕ) (t : Duration) : ℕ := self.units t - self.base word t

theorem availableIn_eq (self : Core) (word : ℕ) (t : Duration) :
    self.availableIn word t = self.tokensIn (self.credit word t) := rfl

variable {config : BucketConfig}

theorem credit_le_burst (h : config.Valid) (word : ℕ) (t : Duration) :
    (new config).credit word t ≤ (new config).burst := by
  have hburst := burst_lt_units h t
  unfold credit base
  omega

theorem credit_add (self : Core) (word : ℕ) (t : Duration) (units : ℕ) :
    self.credit (self.base word t + units) t = self.credit word t - units := by
  unfold credit base
  omega

/-- What is there is granted. -/
theorem acquire_exec (h : config.Valid) {n : ℕ} {t : Duration} {word : ℕ} (hpos : 0 < n)
    (hcap : n ≤ config.capacity) (hcost : (new config).cost n ≤ (new config).credit word t) :
    ((new config).program (.acquire n t)).exec word =
      (⟨.decision .allowed, .allowed n⟩, (new config).base word t + (new config).cost n) := by
  have hcostPos := cost_pos h hpos hcap
  have hmax := units_le h t
  have hdue : (new config).base word t + (new config).cost n ≤ (new config).units t := by
    unfold credit at hcost
    omega
  have hadd : checkedAdd 64 (max word ((new config).units t - (new config).burst))
      ((new config).cost n) = some ((new config).base word t + (new config).cost n) :=
    checkedAdd_eq_some.mpr ⟨rfl, hdue.trans hmax⟩
  have hnot : ¬ n > (new config).capacity := not_lt.mpr hcap
  simp only [program, acquire, if_neg hpos.ne', if_neg hnot, Program.map, Program.exec, hadd,
    if_pos hdue, Attempt.map, Exit.map]

theorem refund_exec {self : Core} {n : ℕ} (word : ℕ) (hpos : 0 < min n self.capacity) :
    (self.program (.refund n)).exec word =
      (⟨.unit, .none⟩, word - self.cost (min n self.capacity)) := by
  simp only [program, refund, if_neg hpos.ne', Program.map, Program.exec, Attempt.map, Exit.map]

/-- A refund moves the word back by the cost of what it returns, nothing included. -/
theorem refund_word (config : BucketConfig) (n word : ℕ) :
    (((new config).program (.refund n)).exec word).2 =
      word - (new config).cost (min n config.capacity) := by
  rcases Nat.eq_zero_or_pos (min n config.capacity) with hzero | hpos
  · simp only [program, refund, new_capacity, hzero, if_true, Program.map, Program.exec, cost_zero,
      Nat.sub_zero]
  · rw [refund_exec word (by rwa [new_capacity]), new_capacity]

theorem available_exec (h : config.Valid) (word : ℕ) (t : Duration) :
    ((new config).program (.available t)).exec word =
      (⟨.count ((new config).availableIn word t), .none⟩, word) := by
  have hcap : (new config).capacity ≠ 0 := (config.valid_iff.mp h).1.ne'
  simp only [program, available, if_neg hcap, Program.map, Program.exec, Attempt.map, Exit.map]

theorem tokensIn_mono (h : config.Valid) {a b : ℕ} (hab : a ≤ b) :
    (new config).tokensIn a ≤ (new config).tokensIn b := by
  have hcap := tokensIn_le h a
  exact (cost_le_iff h hcap b).mp (((cost_le_iff h hcap a).mpr le_rfl).trans hab)

/-- A call run in one piece declines or makes an entry. -/
theorem exec_logged (self : Core) (c : Call) (word : ℕ) :
    (c.taken ((self.program c).exec word).1.value = 0 ∧ ((self.program c).exec word).2 = word) ∨
      ∃ w : Entry Unit, self.Logged w ∧ w.call = c ∧ w.before = word ∧
        w.result = ((self.program c).exec word).1 ∧ w.after = ((self.program c).exec word).2 := by
  rcases (self.program c).exec_cases word with ⟨exit, next, hwrite, hexec⟩ | ⟨exit, hdeclines, hexec⟩
  · right
    exact ⟨⟨⟨(), c, exit, 0, 0, 0⟩, word, next⟩, hwrite, rfl, rfl, by rw [hexec], by rw [hexec]⟩
  · left
    rw [hexec]
    exact ⟨taken_of_declines hdeclines, rfl⟩

/-- Whatever neither refunds nor resets charges what it takes to a word no earlier than full, and is
covered when its caller acts. -/
theorem exec_take (h : config.Valid) {t : Duration} {c : Call} (hreading : c.reading = some t)
    (hreset : c.isReset = false) (word : ℕ) :
    (c.taken (((new config).program c).exec word).1.value = 0 ∧
        (((new config).program c).exec word).2 = word) ∨
      ∃ n, 0 < n ∧ n ≤ config.capacity ∧ c.taken (((new config).program c).exec word).1.value = n ∧
        (((new config).program c).exec word).2 = (new config).base word t + (new config).cost n ∧
        (new config).base word t + (new config).cost n ≤ (new config).clock.read
          (t.asNanos + c.waited (((new config).program c).exec word).1.value) := by
  have hrefund : c.isRefund = false := by
    cases c with
    | refund => cases hreading
    | _ => rfl
  apply ((new config).exec_logged c word).imp_right
  rintro ⟨w, hw, rfl, rfl, hresult, hafter⟩
  have hgrant := grant_of_call h hw hrefund hreset
  have hword : w.after = (new config).base w.before t + (new config).cost w.taken := by
    rw [← charged_eq h hreading]
    exact hgrant.after_eq
  have hcovered := hgrant.covered
  rw [ends_eq hreading, hword] at hcovered
  rw [← hresult, ← hafter]
  exact ⟨w.taken, hgrant.taken_pos, hgrant.taken_le, rfl, hword, hcovered⟩

/-- A caller never waits longer than it said. -/
theorem reserve_waited_le (self : Core) (n : ℕ) (maxWait now : Duration) (word : ℕ) :
    (Call.reserve n maxWait now).waited ((self.program (.reserve n maxWait now)).exec word).1.value ≤
      maxWait.asNanos := by
  rcases (self.program (.reserve n maxWait now)).exec_cases word with
    ⟨⟨answer, record⟩, next, hwrite, hexec⟩ | ⟨exit, hdeclines, hexec⟩
  · have heffect := effect_of_write hwrite
    rw [hexec]
    cases heffect with
    | reserve hpos hcap hrange hmax hwait => exact hmax
  · obtain ⟨r, hr, hvalue⟩ := declines_map hdeclines
    rw [hexec, hvalue]
    by_cases hzero : n = 0
    · subst hzero
      rcases hr with hret | ⟨body, v, hloop, -⟩
      · cases hret
        exact Nat.zero_le _
      · cases hloop
    · rw [reserve_declines (Nat.pos_of_ne_zero hzero) hr]
      exact Nat.zero_le _

end BetterBucket.Core

import BetterBucket.Arithmetic.Tokens

/-!
# What a committed write can be

`Effect` inverts every operation at once: the calls that write, what they answer and the word they
leave.  Seen from the accounting there are only grants, refunds and resets (`Grant`).
-/

namespace BetterBucket.Core

open MachineWords CasLoop

/-- The word a call at `now` charges: no earlier than full. -/
def base (self : Core) (word : ℕ) (now : Duration) : ℕ := max word (self.units now - self.burst)

inductive Effect (self : Core) (word : ℕ) : Call → Answer → ℕ → Prop
  | acquire {n now} (hpos : 0 < n) (hcap : n ≤ self.capacity)
      (hrange : self.base word now + self.cost n ≤ maxValue 64)
      (hdue : self.base word now + self.cost n ≤ self.units now) :
      Effect self word (.acquire n now) (.decision .allowed) (self.base word now + self.cost n)
  | acquireUpTo {n now take} (hpos : 0 < take)
      (htake : take = min (self.tokensIn (self.units now - self.base word now)) (min n self.capacity)) :
      Effect self word (.acquireUpTo n now) (.count take)
        (saturatingAdd 64 (self.base word now) (self.cost take))
  | reserve {n maxWait now wait} (hpos : 0 < n) (hcap : n ≤ self.capacity)
      (hrange : self.base word now + self.cost n ≤ maxValue 64) (hmax : wait ≤ maxWait)
      (hwait : (if self.base word now + self.cost n ≤ self.units now then some .zero
        else self.waitUntil (self.base word now + self.cost n) now) = some wait) :
      Effect self word (.reserve n maxWait now) (.wait (some wait)) (self.base word now + self.cost n)
  | refund {n} (hpos : 0 < min n self.capacity) :
      Effect self word (.refund n) .unit (word - self.cost (min n self.capacity))
  | reset {now} : Effect self word (.reset now) .unit (self.units now - self.burst)

section Inversion

variable {self : Core} {word word' : ℕ}

theorem write?_map {α : Type} {f : α → Answer} {p : Program ℕ (Exit α)} {exit : Exit Answer}
    (h : (p.map (Exit.map f)).write? word = some (exit, word')) :
    ∃ r, p.write? word = some (r, word') ∧ exit.value = f r.value := by
  cases p with
  | ret r => simp [Program.map, Program.write?] at h
  | swap next r =>
    simp only [Program.map, Program.write?, Option.some.injEq, Prod.mk.injEq] at h
    obtain ⟨rfl, rfl⟩ := h
    exact ⟨r, rfl, rfl⟩
  | loop body =>
    simp only [Program.map, Program.write?] at h ⊢
    cases hbody : body word with
    | done r => simp [hbody, Attempt.map] at h
    | cas next r =>
      simp only [hbody, Attempt.map, Option.some.injEq, Prod.mk.injEq] at h
      obtain ⟨rfl, rfl⟩ := h
      exact ⟨r, rfl, rfl⟩

theorem acquire_write? {n : ℕ} {now : Duration} {r : Exit Decision}
    (h : (self.acquire n now).write? word = some (r, word')) :
    0 < n ∧ n ≤ self.capacity ∧ self.base word now + self.cost n ≤ maxValue 64 ∧
      self.base word now + self.cost n ≤ self.units now ∧ r.value = .allowed ∧
      word' = self.base word now + self.cost n := by
  unfold acquire at h
  split at h
  · simp [Program.write?] at h
  split at h
  · simp [Program.write?] at h
  rename_i hzero hcap
  simp only [Program.write?] at h
  cases hnext : checkedAdd 64 (max word (self.units now - self.burst)) (self.cost n) with
  | none => simp [hnext] at h
  | some next =>
    obtain ⟨rfl, hrange⟩ := checkedAdd_eq_some.mp hnext
    simp only [hnext] at h
    split at h
    · cases h
    · rename_i hattempt
      split_ifs at hattempt with hdue
      cases hattempt
      simp only [Option.some.injEq, Prod.mk.injEq] at h
      obtain ⟨rfl, rfl⟩ := h
      exact ⟨by omega, by omega, hrange, hdue, rfl, rfl⟩

theorem acquireUpTo_write? {n : ℕ} {now : Duration} {r : Exit ℕ}
    (h : (self.acquireUpTo n now).write? word = some (r, word')) :
    0 < r.value ∧
      r.value = min (self.tokensIn (self.units now - self.base word now)) (min n self.capacity) ∧
      word' = saturatingAdd 64 (self.base word now) (self.cost r.value) := by
  unfold acquireUpTo at h
  split at h
  · simp [Program.write?] at h
  simp only [Program.write?] at h
  split at h
  · cases h
  · rename_i hattempt
    split_ifs at hattempt with htake
    cases hattempt
    simp only [Option.some.injEq, Prod.mk.injEq] at h
    obtain ⟨rfl, rfl⟩ := h
    exact ⟨Nat.pos_of_ne_zero htake, rfl, rfl⟩

theorem reserve_write? {n : ℕ} {maxWait now : Duration} {r : Exit (Option Duration)}
    (h : (self.reserve n maxWait now).write? word = some (r, word')) :
    0 < n ∧ n ≤ self.capacity ∧ self.base word now + self.cost n ≤ maxValue 64 ∧
      word' = self.base word now + self.cost n ∧
      ∃ wait, r.value = some wait ∧ wait ≤ maxWait ∧
        (if self.base word now + self.cost n ≤ self.units now then some .zero
          else self.waitUntil (self.base word now + self.cost n) now) = some wait := by
  unfold reserve at h
  split at h
  · simp [Program.write?] at h
  split at h
  · simp [Program.write?] at h
  rename_i hzero hcap
  simp only [Program.write?] at h
  cases hnext : checkedAdd 64 (max word (self.units now - self.burst)) (self.cost n) with
  | none => simp [hnext] at h
  | some next =>
    obtain ⟨rfl, hrange⟩ := checkedAdd_eq_some.mp hnext
    simp only [hnext] at h
    cases hwait : Option.filter (fun wait => decide (wait ≤ maxWait))
        (if max word (self.units now - self.burst) + self.cost n ≤ self.units now then some .zero
          else self.waitUntil (max word (self.units now - self.burst) + self.cost n) now) with
    | none => simp [hwait] at h
    | some wait =>
      simp only [hwait, Option.some.injEq, Prod.mk.injEq] at h
      obtain ⟨rfl, rfl⟩ := h
      obtain ⟨hsome, hle⟩ := Option.filter_eq_some_iff.mp hwait
      exact ⟨by omega, by omega, hrange, rfl, wait, rfl, by simpa using hle, hsome⟩

theorem refund_write? {n : ℕ} {r : Exit Unit} (h : (self.refund n).write? word = some (r, word')) :
    0 < min n self.capacity ∧ word' = word - self.cost (min n self.capacity) := by
  unfold refund at h
  dsimp only at h
  split at h
  · simp [Program.write?] at h
  rename_i hzero
  simp only [Program.write?, Option.some.injEq, Prod.mk.injEq] at h
  exact ⟨Nat.pos_of_ne_zero hzero, h.2.symm⟩

theorem effect_of_write {call : Call} {exit : Exit Answer}
    (h : (self.program call).write? word = some (exit, word')) :
    Effect self word call exit.value word' := by
  cases call with
  | acquire n now =>
    obtain ⟨r, hr, hvalue⟩ := write?_map h
    obtain ⟨hpos, hcap, hrange, hdue, hallowed, rfl⟩ := acquire_write? hr
    rw [hvalue, hallowed]
    exact .acquire hpos hcap hrange hdue
  | acquireUpTo n now =>
    obtain ⟨r, hr, hvalue⟩ := write?_map h
    obtain ⟨hpos, htake, rfl⟩ := acquireUpTo_write? hr
    rw [hvalue]
    exact .acquireUpTo hpos htake
  | available now =>
    -- observers never write
    obtain ⟨r, hr, hvalue⟩ := write?_map h
    unfold available at hr
    split at hr <;> simp [Program.write?] at hr
  | timeUntil n now =>
    obtain ⟨r, hr, hvalue⟩ := write?_map h
    unfold timeUntil at hr
    split at hr
    · simp [Program.write?] at hr
    split at hr
    · simp [Program.write?] at hr
    simp only [Program.write?] at hr
    cases hnext : checkedAdd 64 (max word (self.units now - self.burst)) (self.cost n) <;>
      simp [hnext] at hr
  | reserve n maxWait now =>
    obtain ⟨r, hr, hvalue⟩ := write?_map h
    obtain ⟨hpos, hcap, hrange, rfl, wait, hsome, hmax, hwait⟩ := reserve_write? hr
    rw [hvalue, hsome]
    exact .reserve hpos hcap hrange hmax hwait
  | refund n =>
    obtain ⟨r, hr, hvalue⟩ := write?_map h
    obtain ⟨hpos, rfl⟩ := refund_write? hr
    rw [hvalue]
    exact .refund hpos
  | reset now =>
    obtain ⟨r, hr, hvalue⟩ := write?_map (p := self.reset now) h
    simp only [reset, Program.write?, Option.some.injEq, Prod.mk.injEq] at hr
    rw [hvalue, ← hr.2]
    exact .reset

end Inversion

/-! ## Calls that write nothing -/

section Declining

variable {self : Core}

theorem declines_map {α : Type} {f : α → Answer} {p : Program ℕ (Exit α)} {exit : Exit Answer}
    (h : (p.map (Exit.map f)).Declines exit) : ∃ r, p.Declines r ∧ exit.value = f r.value := by
  rcases h with hret | ⟨body, v, hloop, hbody⟩
  · cases p with
    | ret r =>
      simp only [Program.map, Program.ret.injEq] at hret
      exact ⟨r, .inl rfl, by rw [← hret, Exit.map]⟩
    | loop body => simp [Program.map] at hret
    | swap next r => simp [Program.map] at hret
  · cases p with
    | ret r => simp [Program.map] at hloop
    | swap next r => simp [Program.map] at hloop
    | loop body' =>
      simp only [Program.map, Program.loop.injEq] at hloop
      rw [← hloop] at hbody
      cases hattempt : body' v with
      | cas next r => simp [hattempt, Attempt.map] at hbody
      | done r =>
        simp only [hattempt, Attempt.map, Attempt.done.injEq] at hbody
        exact ⟨r, .inr ⟨body', v, rfl, hattempt⟩, by rw [← hbody, Exit.map]⟩

/-- A denial names the wait for a target past the reading, or no wait at all. -/
theorem acquire_declines {n : ℕ} {now : Duration} {r : Exit Decision} (hpos : 0 < n)
    (h : (self.acquire n now).Declines r) :
    r.value = .denied .MAX ∨ ∃ next, self.units now < next ∧ next ≤ maxValue 64 ∧
      r.value = .denied ((self.waitUntil next now).getD .MAX) := by
  unfold acquire at h
  rw [if_neg hpos.ne'] at h
  split at h
  · -- more than the capacity
    rcases h with hret | ⟨body, v, hloop, -⟩
    · cases hret
      exact .inl rfl
    · cases hloop
  · rcases h with hret | ⟨body, v, hloop, hbody⟩
    · cases hret
    · cases hloop
      dsimp only at hbody
      split at hbody
      · rename_i next hnext
        have hrange := checkedAdd_eq_some.mp hnext
        split at hbody
        · cases hbody
        · rename_i hlate
          cases hbody
          exact .inr ⟨next, not_le.mp hlate, hrange.1 ▸ hrange.2, rfl⟩
      · cases hbody
        exact .inl rfl

theorem acquireUpTo_declines {n : ℕ} {now : Duration} {r : Exit ℕ}
    (h : (self.acquireUpTo n now).Declines r) : r.value = 0 := by
  unfold acquireUpTo at h
  split at h
  · rcases h with hret | ⟨body, v, hloop, -⟩
    · cases hret
      rfl
    · cases hloop
  · rcases h with hret | ⟨body, v, hloop, hbody⟩
    · cases hret
    · cases hloop
      dsimp only at hbody
      split at hbody
      · cases hbody
        rfl
      · cases hbody

theorem reserve_declines {n : ℕ} {maxWait now : Duration} {r : Exit (Option Duration)}
    (hpos : 0 < n) (h : (self.reserve n maxWait now).Declines r) : r.value = none := by
  unfold reserve at h
  rw [if_neg hpos.ne'] at h
  split at h
  · rcases h with hret | ⟨body, v, hloop, -⟩
    · cases hret
      rfl
    · cases hloop
  · rcases h with hret | ⟨body, v, hloop, hbody⟩
    · cases hret
    · cases hloop
      dsimp only at hbody
      split at hbody
      · cases hbody
        rfl
      · split at hbody
        · cases hbody
          rfl
        · cases hbody

theorem taken_of_declines {call : Call} {exit : Exit Answer}
    (h : (self.program call).Declines exit) : call.taken exit.value = 0 := by
  cases call with
  | acquire n now =>
    obtain ⟨r, hr, hvalue⟩ := declines_map h
    rw [hvalue]
    -- asking for nothing is allowed, and takes nothing
    rcases Nat.eq_zero_or_pos n with rfl | hpos
    · cases r.value <;> rfl
    · rcases acquire_declines hpos hr with hmax | ⟨next, -, -, hwait⟩
      · rw [hmax]
        rfl
      · rw [hwait]
        rfl
  | acquireUpTo n now =>
    obtain ⟨r, hr, hvalue⟩ := declines_map h
    rw [hvalue, acquireUpTo_declines hr]
    rfl
  | reserve n maxWait now =>
    obtain ⟨r, hr, hvalue⟩ := declines_map h
    rw [hvalue]
    rcases Nat.eq_zero_or_pos n with rfl | hpos
    · cases r.value <;> rfl
    · rw [reserve_declines hpos hr]
      rfl
  | available | timeUntil | refund | reset => rfl

end Declining

end BetterBucket.Core

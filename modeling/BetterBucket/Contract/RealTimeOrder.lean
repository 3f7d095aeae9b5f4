import BetterBucket.Contract.Batching
import BetterBucket.Foundation.Observation
import BetterBucket.Foundation.Schedule
import BetterBucket.Protocol.Promises

/-!
# One answer after another

What a call that has returned saw, against what a call invoked afterwards sees: the tokens missing at
a reading, and the instants answers name.
-/

namespace BetterBucket

namespace Call

/-- So many tokens are not there at the call's reading once it has returned with this answer. -/
def lacks : Call → Answer → Option ℕ
  | .acquire n _, .decision (.denied _) => some n
  | .acquireUpTo n _, .count k => if k < n then some 1 else none
  | .available _, .count k => some (k + 1)
  | .timeUntil n _, .wait w => if w = some .zero then none else some n
  | .reserve n _ _, .wait none => some n
  | .reserve _ _ _, .wait (some w) => if w = .zero then none else some 1
  | _, _ => none

end Call

namespace Core

open CasLoop MachineWords

variable {T : Type*} {config : BucketConfig} {k n m word word' : ℕ} {t t' : Duration} {c d : Call}

/-! ## Shortage -/

/-- What there is a wait for is not covered, nor is more. -/
theorem short_of_waitFor (h : config.Valid) (hwait : (new config).waitFor n word t ≠ some .zero)
    (hnm : n ≤ m) (hcap : m ≤ config.capacity) : (new config).units t < word + (new config).cost m := by
  by_contra hcovered
  have hcost := cost_mono h hnm hcap
  exact hwait (waitFor_of_due h (hnm.trans hcap) (by omega))

theorem pos_and_le_of_waitFor {w : Duration} (hwait : (new config).waitFor n word t = some w) (hne : w ≠ .zero) :
    0 < n ∧ n ≤ config.capacity := by
  constructor
  · apply Nat.pos_of_ne_zero
    rintro rfl
    rw [waitFor_zero] at hwait
    exact hne (Option.some.inj hwait).symm
  · by_contra hover
    rw [waitFor_of_lt (not_le.mp hover)] at hwait
    cases hwait

theorem le_after (h : config.Valid) (hreading : c.reading = some t) (hreset : c.isReset = false) (word : ℕ) :
    word ≤ (new config).after c word := by
  have hbase : word ≤ (new config).base word t := le_max_left _ _
  rcases exec_take h hreading hreset word with ⟨-, hword⟩ | ⟨n, -, -, -, hword, -⟩
  · exact hword.ge
  · have hafter : (new config).after c word = (new config).base word t + (new config).cost n := hword
    omega

/-- A call that took tokens left them charged. -/
theorem word_add_cost_le_after (h : config.Valid) (hreading : c.reading = some t) (hreset : c.isReset = false)
    (htaken : c.taken ((new config).answer c word) = n) (hpos : 0 < n) :
    word + (new config).cost n ≤ (new config).after c word := by
  have hbase : word ≤ (new config).base word t := le_max_left _ _
  rcases exec_take h hreading hreset word with ⟨hnone, -⟩ | ⟨k, -, -, htook, hword, -⟩
  · exact absurd (htaken.symm.trans hnone) hpos.ne'
  · obtain rfl : n = k := htaken.symm.trans htook
    have hafter : (new config).after c word = (new config).base word t + (new config).cost n := hword
    omega

/-- Whoever took all that was there left less than a token. -/
theorem drained (h : config.Valid) (word : ℕ) (t : Duration) (hm : 0 < m) (hcap : m ≤ config.capacity) :
    (new config).units t < (new config).base word t +
      (new config).cost ((new config).availableIn word t) + (new config).cost m := by
  rw [availableIn_eq]
  have hle := tokensIn_le h ((new config).credit word t)
  have hcost := cost_pos h hm hcap
  have hcredit : (new config).credit word t <
      (new config).cost ((new config).tokensIn ((new config).credit word t)) + (new config).cost m := by
    by_cases hfull : (new config).tokensIn ((new config).credit word t) + 1 ≤ config.capacity
    · -- one token more is not covered, and apart it costs no less
      have hmore := (cost_le_iff h hfull ((new config).credit word t)).not.mpr (by omega)
      have hadd := cost_add_le h hfull
      have hone : (new config).cost 1 ≤ (new config).cost m := cost_mono h hm hcap
      omega
    · have hall : (new config).tokensIn ((new config).credit word t) = config.capacity := by omega
      have hburst : (new config).cost config.capacity = (new config).burst := rfl
      have hroom := credit_le_burst h word t
      rw [hall, hburst]
      omega
  unfold credit at hcredit ⊢
  omega

/-- What there is a wait for is short on every later word too. -/
theorem short_later (h : config.Valid) (hwait : (new config).waitFor n word t ≠ some .zero)
    (hlater : word ≤ word') (hnm : n ≤ m) (hcap : m ≤ config.capacity) :
    0 < m ∧ (new config).units t < word' + (new config).cost m := by
  have hpos : 0 < n := Nat.pos_of_ne_zero fun hzero => hwait (hzero ▸ waitFor_zero ..)
  have hshort := short_of_waitFor h hwait hnm hcap
  omega

theorem acquire_lacks (h : config.Valid)
    (hlacks : (Call.acquire n t).lacks ((new config).answer (.acquire n t) word) = some m) :
    (new config).waitFor m word t ≠ some .zero := by
  rw [acquire_answer h] at hlacks
  by_cases hdue : (new config).waitFor n word t = some .zero
  · rw [if_pos hdue] at hlacks
    cases hlacks
  · rw [if_neg hdue] at hlacks
    cases hlacks
    exact hdue

theorem available_lacks (h : config.Valid)
    (hlacks : (Call.available t).lacks ((new config).answer (.available t) word) = some m) :
    (new config).waitFor m word t ≠ some .zero := by
  rw [answer, available_exec h] at hlacks
  cases hlacks
  intro hdue
  have hle := (waitFor_eq_zero_iff_le h).mp hdue
  omega

theorem timeUntil_lacks
    (hlacks : (Call.timeUntil n t).lacks ((new config).answer (.timeUntil n t) word) = some m) :
    (new config).waitFor m word t ≠ some .zero := by
  rw [timeUntil_answer] at hlacks
  simp only [Call.lacks] at hlacks
  split at hlacks
  · cases hlacks
  · rename_i hdue
    cases hlacks
    exact hdue

/-- A partial grant took all there was, so one token more is short. -/
theorem acquireUpTo_lacks (h : config.Valid)
    (hlacks : (Call.acquireUpTo k t).lacks ((new config).answer (.acquireUpTo k t) word) = some n)
    (hword : (new config).after (.acquireUpTo k t) word ≤ word') (hnm : n ≤ m) (hcap : m ≤ config.capacity) :
    0 < m ∧ (new config).units t < word' + (new config).cost m := by
  obtain ⟨hanswer, hafter⟩ := acquireUpTo_agrees h k word t
  rw [hanswer] at hlacks
  simp only [Call.lacks] at hlacks
  split at hlacks
  case isTrue hpart =>
    cases hlacks
    rw [min_eq_right (by omega)] at hafter
    have hdue : (new config).waitFor ((new config).availableIn word t) word t = some .zero :=
      (waitFor_eq_zero_iff_le h).mpr le_rfl
    rw [hafter, acquire_after h _ _ _ hdue] at hword
    by_cases hnone : (new config).availableIn word t = 0
    · -- nothing was there, and nothing was taken
      rw [if_pos hnone] at hword
      have hwait : (new config).waitFor 1 word t ≠ some .zero := by
        intro hone
        have hle := (waitFor_eq_zero_iff_le h).mp hone
        omega
      exact short_later h hwait hword hnm hcap
    · rw [if_neg hnone] at hword
      have hshort := drained h word t hnm hcap
      omega
  case isFalse => cases hlacks

/-- A refused reservation finds too little, and one that waits charges past its own reading. -/
theorem reserve_lacks (h : config.Valid) {maxWait : Duration}
    (hlacks : (Call.reserve k maxWait t).lacks ((new config).answer (.reserve k maxWait t) word) = some n)
    (hword : (new config).after (.reserve k maxWait t) word ≤ word') (hnm : n ≤ m)
    (hcap : m ≤ config.capacity) : 0 < m ∧ (new config).units t < word' + (new config).cost m := by
  have hanswer := reserve_answer (new config) k word t maxWait
  cases hfilter : ((new config).waitFor k word t).filter fun wait => wait ≤ maxWait with
  | none =>
    rw [hanswer, hfilter] at hlacks
    cases hlacks
    have hwait : (new config).waitFor k word t ≠ some .zero := by
      intro hdue
      have hzero : Duration.zero ≤ maxWait := Nat.zero_le _
      rw [hdue, Option.filter_some, if_pos (decide_eq_true hzero)] at hfilter
      cases hfilter
    have hlater := (le_after h (c := .reserve k maxWait t) rfl rfl word).trans hword
    exact short_later h hwait hlater hnm hcap
  | some w =>
    have hwait := (Option.filter_eq_some_iff.mp hfilter).1
    rw [hfilter] at hanswer
    rw [hanswer] at hlacks
    simp only [Call.lacks] at hlacks
    split at hlacks
    · cases hlacks
    · rename_i hne
      cases hlacks
      obtain ⟨hpos, hkcap⟩ := pos_and_le_of_waitFor hwait hne
      have hcharged := word_add_cost_le_after h (c := .reserve k maxWait t) rfl rfl
        (by rw [hanswer]; rfl) hpos
      have hlate : (new config).waitFor k word t ≠ some .zero := by
        rw [hwait]
        exact fun heq => hne (Option.some.inj heq)
      have hshort := short_of_waitFor h hlate le_rfl hkcap
      exact ⟨hnm, by omega⟩

/-- On every word from the one the call left on, so many tokens are short. -/
theorem lacks_sound (h : config.Valid) (hreading : c.reading = some t)
    (hlacks : c.lacks ((new config).answer c word) = some n) (hword : (new config).after c word ≤ word')
    (hnm : n ≤ m) (hcap : m ≤ config.capacity) :
    0 < m ∧ (new config).units t < word' + (new config).cost m := by
  have hlater : c.isReset = false → word ≤ word' := fun hreset => (le_after h hreading hreset word).trans hword
  cases c with
  | acquire k now =>
    cases hreading
    exact short_later h (acquire_lacks h hlacks) (hlater rfl) hnm hcap
  | acquireUpTo k now =>
    cases hreading
    exact acquireUpTo_lacks h hlacks hword hnm hcap
  | available now =>
    cases hreading
    exact short_later h (available_lacks h hlacks) (hlater rfl) hnm hcap
  | timeUntil k now =>
    cases hreading
    exact short_later h (timeUntil_lacks hlacks) (hlater rfl) hnm hcap
  | reserve k maxWait now =>
    cases hreading
    exact reserve_lacks h hlacks hword hnm hcap
  | refund k => cases hreading
  | reset now => cases hlacks

section Pair

variable [DecidableEq T] {es : List (Event T Call ℕ (Exit Answer))} {s : State T Call ℕ}
  {first later : Completion T Call (Exit Answer)}

end Pair

end Core

end BetterBucket

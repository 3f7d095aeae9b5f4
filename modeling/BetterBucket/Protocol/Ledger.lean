import BetterBucket.Protocol.Effects

/-!
# The ledger of a bucket

The log of committed writes read as a ledger: what each entry takes or returns, when it starts and
when its tokens are due.  A segment without a reset moves the word by at least the net tokens of
the segment (`word_add_net_le`).
-/

namespace BetterBucket

open MachineWords CasLoop

abbrev Entry (T : Type*) := Write T Call ℕ (Exit Answer)

variable {T : Type*}

namespace Entry

def taken (w : Entry T) : ℕ := w.call.taken w.result.value

def refunded (capacity : ℕ) (w : Entry T) : ℕ := w.call.refunded capacity

/-- The reading of the entry's call, in nanoseconds. -/
def starts (w : Entry T) : ℕ := w.call.readingNanos

/-- When the caller acts on the tokens: its reading and the wait it was told. -/
def ends (w : Entry T) : ℕ := w.starts + w.call.waited w.result.value

def IsTake (w : Entry T) : Prop := 0 < w.taken

end Entry

def taken (ws : List (Entry T)) : ℕ := (ws.map Entry.taken).sum

def refunded (capacity : ℕ) (ws : List (Entry T)) : ℕ := (ws.map (Entry.refunded capacity)).sum

/-- Tokens taken less tokens returned. -/
def net (capacity : ℕ) (ws : List (Entry T)) : ℤ := (taken ws : ℤ) - refunded capacity ws

@[simp]
theorem taken_append (ws ws' : List (Entry T)) : taken (ws ++ ws') = taken ws + taken ws' := by
  simp [taken]

@[simp]
theorem taken_cons (w : Entry T) (ws : List (Entry T)) : taken (w :: ws) = w.taken + taken ws := by
  simp [taken]

@[simp]
theorem taken_nil : taken ([] : List (Entry T)) = 0 := rfl

@[simp]
theorem net_nil (capacity : ℕ) : net capacity ([] : List (Entry T)) = 0 := rfl

theorem net_append (capacity : ℕ) (ws ws' : List (Entry T)) :
    net capacity (ws ++ ws') = net capacity ws + net capacity ws' := by
  simp only [net, taken, refunded, List.map_append, List.sum_append, Nat.cast_add]
  ring

theorem net_singleton (capacity : ℕ) (w : Entry T) :
    net capacity [w] = w.taken - w.refunded capacity := by
  simp [net, taken, refunded]

/-- Without refunds the net tokens are those taken. -/
theorem net_of_grants {ws : List (Entry T)} (hgrants : ∀ w ∈ ws, w.call.isRefund = false) (capacity : ℕ) :
    net capacity ws = taken ws := by
  have hzero : refunded capacity ws = 0 := by
    apply List.sum_eq_zero
    intro n hn
    obtain ⟨w, hw, rfl⟩ := List.mem_map.mp hn
    exact Call.refunded_of_not_refund (hgrants w hw) capacity
  rw [net, hzero, Nat.cast_zero, sub_zero]

namespace Core

/-- The entry is what its call does to the word before it. -/
def Logged (self : Core) (w : Entry T) : Prop :=
  (self.program w.call).write? w.before = some (w.result, w.after)

/-- The word an entry charges: no earlier than full at its reading. -/
def charged (self : Core) (w : Entry T) : ℕ := max w.before (self.clock.read w.starts - self.burst)

/-- An entry that takes tokens: it charges a word no earlier than full, and what it leaves is
covered when its caller acts. -/
structure Grant (core : Core) (w : Entry T) : Prop where
  taken_pos : 0 < w.taken
  taken_le : w.taken ≤ core.capacity
  not_refund : w.call.isRefund = false
  not_reset : w.call.isReset = false
  after_eq : w.after = core.charged w + core.cost w.taken
  covered : w.after ≤ core.clock.read w.ends

namespace Grant

variable {core : Core} {w : Entry T}

theorem before_add_cost_le (h : core.Grant w) : w.before + core.cost w.taken ≤ w.after := by
  rw [h.after_eq]
  exact Nat.add_le_add_right (le_max_left _ _) _

theorem starts_add_cost_le (h : core.Grant w) :
    core.clock.read w.starts + core.cost w.taken ≤ w.after + core.burst := by
  have hbase : core.clock.read w.starts - core.burst ≤ core.charged w := le_max_right _ _
  rw [h.after_eq]
  omega

theorem refunded_eq_zero (h : core.Grant w) (capacity : ℕ) : w.refunded capacity = 0 :=
  Call.refunded_of_not_refund h.not_refund capacity

end Grant

section Valid

variable {config : BucketConfig} {w : Entry T}

/-- An affordable charge stays on the clock. -/
theorem base_add_cost_le (h : config.Valid) {word n : ℕ} {now : Duration} (hpos : 0 < n)
    (hn : n ≤ config.capacity)
    (haff : n ≤ (new config).tokensIn ((new config).units now - (new config).base word now)) :
    (new config).base word now + (new config).cost n ≤ (new config).units now := by
  have hcost := (cost_le_iff h hn _).mpr haff
  have hcostPos := cost_pos h hpos hn
  omega

theorem charged_eq (h : config.Valid) {now : Duration} (hreading : w.call.reading = some now) :
    (new config).charged w = (new config).base w.before now := by
  rw [charged, base, Entry.starts, Call.readingNanos, hreading, units_eq h]
  rfl

theorem ends_eq {now : Duration} (hreading : w.call.reading = some now) :
    w.ends = now.asNanos + w.call.waited w.result.value := by
  rw [Entry.ends, Entry.starts, Call.readingNanos, hreading]
  rfl

/-- An entry that charged the price of what it took is a grant, once its charge is on the clock. -/
theorem Grant.of_base (h : config.Valid) {now : Duration} (hreading : w.call.reading = some now)
    (hpos : 0 < w.taken) (hcap : w.taken ≤ config.capacity) (hrefund : w.call.isRefund = false)
    (hreset : w.call.isReset = false)
    (hafter : w.after = (new config).base w.before now + (new config).cost w.taken)
    (hcovered : w.after ≤ (new config).clock.read (now.asNanos + w.call.waited w.result.value)) :
    (new config).Grant w where
  taken_pos := hpos
  taken_le := hcap
  not_refund := hrefund
  not_reset := hreset
  after_eq := by rw [charged_eq h hreading, hafter]
  covered := by rw [ends_eq hreading]; exact hcovered

theorem entry_cases (h : config.Valid) (hw : (new config).Logged w) :
    (new config).Grant w ∨
      (∃ n, w.call = .refund n ∧ w.taken = 0 ∧ w.after = w.before - (new config).cost (min n config.capacity)) ∨
      (∃ now, w.call = .reset now ∧ w.taken = 0 ∧ w.after = (new config).units now - (new config).burst) := by
  have heffect := effect_of_write hw
  obtain ⟨⟨thread, call, ⟨answer, record⟩, invoked, effect, returned⟩, before, after⟩ := w
  dsimp only at heffect
  cases heffect with
  | @acquire n now hpos hcap hrange hdue =>
    left
    rw [units_eq h] at hdue
    exact .of_base h rfl hpos hcap rfl rfl rfl hdue
  | @acquireUpTo n now take hpos htake =>
    left
    have hle : take ≤ config.capacity := htake ▸ (min_le_right _ _).trans (min_le_right _ _)
    have hdue : (new config).base before now + (new config).cost take ≤ (new config).units now :=
      base_add_cost_le h hpos hle (htake ▸ min_le_left _ _)
    -- the addition is written as a saturating one and never saturates
    rw [saturatingAdd_of_le (hdue.trans (units_le h now))]
    rw [units_eq h] at hdue
    exact .of_base h rfl hpos hle rfl rfl rfl hdue
  | @reserve n maxWait now wait hpos hcap hrange hmax hwait =>
    left
    refine .of_base h rfl hpos hcap rfl rfl rfl ?_
    show (new config).base before now + (new config).cost n ≤
      (new config).clock.read (now.asNanos + wait.asNanos)
    split at hwait
    · rename_i hdue
      rw [units_eq h] at hdue
      exact hdue.trans (ScaledClock.Clock.read_mono _ (Nat.le_add_right _ _))
    · exact le_read_of_waitUntil h hrange hwait
  | @refund n hpos => exact .inr (.inl ⟨n, rfl, rfl, rfl⟩)
  | @reset now => exact .inr (.inr ⟨now, rfl, rfl, rfl⟩)

theorem grant_of_isTake (h : config.Valid) (hw : (new config).Logged w) (htake : w.IsTake) :
    (new config).Grant w := by
  unfold Entry.IsTake at htake
  rcases entry_cases h hw with hgrant | ⟨n, -, hzero, -⟩ | ⟨now, -, hzero, -⟩
  · exact hgrant
  · omega
  · omega

theorem grant_of_call (h : config.Valid) (hw : (new config).Logged w)
    (hrefund : w.call.isRefund = false) (hreset : w.call.isReset = false) : (new config).Grant w := by
  rcases entry_cases h hw with hgrant | ⟨n, hcall, -⟩ | ⟨now, hcall, -⟩
  · exact hgrant
  · rw [hcall] at hrefund
    cases hrefund
  · rw [hcall] at hreset
    cases hreset

/-- Whatever does not reset adds its net tokens to the word, at their exact price or above. -/
theorem word_add_net_le (h : config.Valid) (hw : (new config).Logged w) (hreset : w.call.isReset = false)
    (hrefund : w.call.isRefund = true → 0 ≤ (new config).unitShift) :
    (w.before : ℚ) + net config.capacity [w] * 2 ^ (new config).unitShift ≤ w.after := by
  rcases entry_cases h hw with hgrant | ⟨n, hcall, hzero, hafter⟩ | ⟨now, hcall, -⟩
  · have hrefunded := hgrant.refunded_eq_zero config.capacity
    have hcost := tokens_le_cost h hgrant.taken_le
    have hbase : (w.before : ℚ) + (new config).cost w.taken ≤ w.after := by
      have := hgrant.before_add_cost_le
      exact_mod_cast this
    rw [net_singleton, hrefunded]
    push_cast
    linarith
  · -- the word may stop at zero, short of the refund
    have hrefunded : w.refunded config.capacity = min n config.capacity := by
      rw [Entry.refunded, hcall, Call.refunded]
    have hs := hrefund (by rw [hcall, Call.isRefund])
    have hcost := cost_exact h hs (min_le_right n config.capacity)
    have hback : (w.before : ℚ) ≤ w.after + (new config).cost (min n config.capacity) := by
      exact_mod_cast (by omega : w.before ≤ w.after + (new config).cost (min n config.capacity))
    rw [hcost, Nat.cast_mul, ← zpow_of_exact hs] at hback
    rw [net_singleton, hzero, hrefunded]
    push_cast at hback ⊢
    linarith
  · rw [hcall] at hreset
    cases hreset

theorem linked_add_net_le (h : config.Valid) {word word' : ℕ} {ws : List (Entry T)}
    (hlinked : Linked (new config).program word ws word')
    (hcalls : ∀ w ∈ ws, w.call.isReset = false ∧ (w.call.isRefund = true → 0 ≤ (new config).unitShift)) :
    (word : ℚ) + net config.capacity ws * 2 ^ (new config).unitShift ≤ word' := by
  refine hlinked.invariant (fun ws word' =>
    (word : ℚ) + net config.capacity ws * 2 ^ (new config).unitShift ≤ word') (by simp) ?_
  intro pre w post hsplit hinv hwrite
  obtain ⟨hreset, hrefund⟩ := hcalls w (by simp [hsplit])
  have hstep := word_add_net_le h hwrite hreset hrefund
  rw [net_append, Int.cast_add, add_mul]
  linarith

/-- Without refunds and resets the word moves by what was taken at least. -/
theorem linked_add_taken_le (h : config.Valid) {word word' : ℕ} {ws : List (Entry T)}
    (hlinked : Linked (new config).program word ws word')
    (hgrants : ∀ w ∈ ws, w.call.isRefund = false ∧ w.call.isReset = false) :
    (word : ℚ) + taken ws * 2 ^ (new config).unitShift ≤ word' := by
  have hnet := linked_add_net_le h hlinked fun w hw =>
    ⟨(hgrants w hw).2, fun hrefund => absurd hrefund (by rw [(hgrants w hw).1]; exact Bool.false_ne_true)⟩
  rwa [net_of_grants fun w hw => (hgrants w hw).1, Int.cast_natCast] at hnet

theorem linked_le (h : config.Valid) {word word' : ℕ} {ws : List (Entry T)}
    (hlinked : Linked (new config).program word ws word')
    (hgrants : ∀ w ∈ ws, w.call.isRefund = false ∧ w.call.isReset = false) : word ≤ word' := by
  have htaken := linked_add_taken_le h hlinked hgrants
  have hpos : (0 : ℚ) ≤ taken ws * 2 ^ (new config).unitShift := by positivity
  have hle : (word : ℚ) ≤ word' := by linarith
  exact_mod_cast hle

/-- Grants only move the word forward. -/
theorem le_before_of_mem (h : config.Valid) {word word' : ℕ} {ws : List (Entry T)}
    (hlinked : Linked (new config).program word ws word')
    (hgrants : ∀ w ∈ ws, w.call.isRefund = false ∧ w.call.isReset = false) (hw : w ∈ ws) :
    word ≤ w.before := by
  obtain ⟨pre, post, rfl⟩ := List.append_of_mem hw
  obtain ⟨mid, hleft, hmid, -⟩ := hlinked.split
  rw [hmid]
  refine hleft.invariant (fun _ word' => word ≤ word') le_rfl ?_
  intro pre' (w' : Entry T) post' hsplit hinv hwrite
  obtain ⟨hrefund, hreset⟩ := hgrants w' (by simp [hsplit])
  have hle := (grant_of_call h hwrite hrefund hreset).before_add_cost_le
  omega

/-- What was taken inside a window fits between `lo` and `hi`, and between `lo` and the word. -/
def FitsWindow (config : BucketConfig) (inside : Entry T → Prop) [DecidablePred inside] (lo hi : ℕ)
    (ws : List (Entry T)) (word : ℕ) : Prop :=
  taken (ws.filter inside) = 0 ∨
    (lo : ℚ) + taken (ws.filter inside) * 2 ^ (new config).unitShift ≤ hi + (new config).burst ∧
    (lo : ℚ) + taken (ws.filter inside) * 2 ^ (new config).unitShift ≤ word + (new config).burst

section FitsWindow

variable {inside : Entry T → Prop} [DecidablePred inside] {lo hi : ℕ} {ws : List (Entry T)}

/-- A take outside the window moves the word, and the window's tokens stay as they were. -/
theorem FitsWindow.take_outside (h : FitsWindow config inside lo hi ws w.before)
    (hgrant : (new config).Grant w) (hout : ¬ inside w) :
    FitsWindow config inside lo hi (ws ++ [w]) w.after := by
  have hmoved : (w.before : ℚ) ≤ w.after := by
    have := hgrant.before_add_cost_le
    exact_mod_cast (by omega : w.before ≤ w.after)
  unfold FitsWindow at h ⊢
  rw [List.filter_append, List.filter_singleton, decide_eq_false hout, Bool.cond_false,
    List.append_nil]
  refine h.imp_right fun hle => ?_
  exact ⟨hle.1, by linarith [hle.2]⟩

/-- The first take inside starts from a word that is full no earlier than `lo`, a later one from the
word before it. -/
theorem FitsWindow.take_inside (h : FitsWindow config inside lo hi ws w.before)
    (hvalid : config.Valid) (hgrant : (new config).Grant w) (hin : inside w)
    (hlo : lo ≤ (new config).charged w + (new config).burst) (hhi : w.after ≤ hi) :
    FitsWindow config inside lo hi (ws ++ [w]) w.after := by
  have hprice := tokens_le_cost hvalid hgrant.taken_le
  have hafter : (w.after : ℚ) = (new config).charged w + (new config).cost w.taken := by
    exact_mod_cast hgrant.after_eq
  have hbefore : (w.before : ℚ) ≤ (new config).charged w := by
    exact_mod_cast (le_max_left _ _ : w.before ≤ (new config).charged w)
  have hloQ : (lo : ℚ) ≤ (new config).charged w + (new config).burst := by exact_mod_cast hlo
  have hhiQ : (w.after : ℚ) ≤ hi := by exact_mod_cast hhi
  right
  rw [List.filter_append, List.filter_singleton, decide_eq_true hin, Bool.cond_true, taken_append,
    taken_cons, taken_nil, Nat.add_zero, Nat.cast_add, add_mul]
  rcases h with hzero | hle
  · rw [hzero, Nat.cast_zero, zero_mul]
    constructor <;> linarith
  · constructor <;> linarith [hle.2]

/-- A log of grants, some of them inside a window: if each of these charges a word that is full no
earlier than `lo` and leaves one of at most `hi`, then together they fit between the two. -/
theorem linked_inside_le (h : config.Valid) {word word' : ℕ}
    (hlinked : Linked (new config).program word ws word') (inside : Entry T → Prop)
    [DecidablePred inside] (lo hi : ℕ)
    (hgrants : ∀ w ∈ ws, w.call.isRefund = false ∧ w.call.isReset = false)
    (hlo : ∀ w ∈ ws, inside w → lo ≤ (new config).charged w + (new config).burst)
    (hhi : ∀ w ∈ ws, inside w → w.after ≤ hi) :
    taken (ws.filter inside) = 0 ∨
      (lo : ℚ) + taken (ws.filter inside) * 2 ^ (new config).unitShift ≤ hi + (new config).burst := by
  have hfits : FitsWindow config inside lo hi ws word' := by
    refine hlinked.invariant (FitsWindow config inside lo hi) (.inl rfl) ?_
    intro pre (w : Entry T) post hsplit hinv hwrite
    have hmem : w ∈ ws := by simp [hsplit]
    have hgrant := grant_of_call h hwrite (hgrants w hmem).1 (hgrants w hmem).2
    by_cases hin : inside w
    · exact hinv.take_inside h hgrant hin (hlo w hmem hin) (hhi w hmem hin)
    · exact hinv.take_outside hgrant hin
  exact hfits.imp_right And.left

end FitsWindow

end Valid

end Core

end BetterBucket

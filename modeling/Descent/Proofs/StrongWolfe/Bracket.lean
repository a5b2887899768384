import Descent.Proofs.Exact
import Descent.Proofs.StrongWolfe.Acceptance

/-!
# Brackets in exact arithmetic

For an objective of which nothing is known: its values and slopes are what the trials have recorded.

* `Phase.Scaled`: where the steps lie. The step is doubled from the first one; a bracket is half as
  wide after every bisection and stays between its first two ends. All steps are positive
  (`Phase.Scaled.pending_pos`, `Phase.Reaches.steps_pos`).
* `Straddles`: what the trials at the two ends of a bracket say. The low end decreases the value
  enough, no such trial is lower, and its slope points to the high end, which is too high.
* `Phase.Sound`: a phase is backed by trials in this way. `Phase.Reaches.scaled` and
  `Phase.Reaches.sound` say that all phases of a search are scaled and sound.
-/

namespace Descent

/-- The start of a slice as a trial. -/
def Slice.origin (start : Slice ℝ) : Trial ℝ where
  step := 0
  value := start.value
  slope := start.slope

variable {rule : StrongWolfe ℝ} {start : Slice ℝ} {first : ℝ} {t : Trial ℝ} {ts : List (Trial ℝ)}
  {phase phase' : Phase ℝ}

theorem Slice.origin_decrease (rule : StrongWolfe ℝ) (start : Slice ℝ) :
    rule.SufficientDecrease start start.origin := by
  rw [sufficientDecrease_iff]
  simp [Slice.origin]

/-- A trial that decreases the value enough is not above the start. -/
theorem StrongWolfe.SufficientDecrease.le_start (h : rule.SufficientDecrease start t)
    (hc₁ : 0 ≤ rule.c₁) (hslope : start.slope < 0) (hstep : 0 < t.step) :
    t.value ≤ start.origin.value := by
  have hgain : rule.c₁ * t.step * start.slope ≤ 0 :=
    mul_nonpos_of_nonneg_of_nonpos (mul_nonneg hc₁ hstep.le) hslope.le
  show t.value ≤ start.value
  linarith [sufficientDecrease_iff.mp h]

/-! ## Where the steps lie -/

/-- The step before the `k`-th doubling of `first`, or zero. -/
def stepBefore (first : ℝ) : ℕ → ℝ
  | 0 => 0
  | k + 1 => 2 ^ k * first

theorem stepBefore_nonneg (hf : 0 < first) (k : ℕ) : 0 ≤ stepBefore first k := by
  cases k with
  | zero => exact le_rfl
  | succ k => unfold stepBefore; positivity

theorem stepBefore_lt (hf : 0 < first) (k : ℕ) : stepBefore first k < 2 ^ k * first := by
  cases k with
  | zero => simpa [stepBefore] using hf
  | succ k =>
    have : 0 < 2 ^ k * first := by positivity
    rw [stepBefore, pow_succ]
    linarith

/-- Two consecutive steps of `n` doublings are not farther apart than the last two. -/
theorem sub_stepBefore_le (hf : 0 < first) {k n : ℕ} (hk : k < n) :
    2 ^ k * first - stepBefore first k ≤ 2 ^ (n - 1) * first := by
  cases k with
  | zero =>
    have : (1 : ℝ) ≤ 2 ^ (n - 1) := one_le_pow₀ one_le_two
    rw [stepBefore]
    nlinarith
  | succ k =>
    have : (2 : ℝ) ^ k ≤ 2 ^ (n - 1) := pow_le_pow_right₀ one_le_two (by omega)
    rw [stepBefore, pow_succ]
    nlinarith

theorem midpoint_eq (b : Bracket ℝ) : b.midpoint = (b.low + b.high) / 2 := by
  change (b.low + b.high) / (1 + 1) = _
  norm_num

namespace Phase

/-- While steps are doubled, the next one is `2ᵏ first`. A bracket closed at the `k`-th doubling
lies between that step and the one before; every bisection has halved its width. An accepted step
is positive. -/
def Scaled (rule : StrongWolfe ℝ) (first : ℝ) : Phase ℝ → Prop
  | bracketing count next last _ => next = 2 ^ count * first ∧ last = stepBefore first count
  | zooming count b => ∃ k < rule.doublings,
      |b.high - b.low| * 2 ^ count = 2 ^ k * first - stepBefore first k ∧
      b.low ∈ Set.Icc (stepBefore first k) (2 ^ k * first) ∧
      b.high ∈ Set.Icc (stepBefore first k) (2 ^ k * first)
  | accepted step => 0 < step

/-- The step is doubled away from the start. -/
theorem Scaled.last_lt_next {count : ℕ} {next last lastValue : ℝ} (hf : 0 < first)
    (h : (bracketing count next last lastValue).Scaled rule first) : 0 ≤ last ∧ last < next := by
  obtain ⟨rfl, rfl⟩ := h
  exact ⟨stepBefore_nonneg hf count, stepBefore_lt hf count⟩

/-- The step that a search takes is never negative. -/
theorem Scaled.step_nonneg (hf : 0 < first) (h : phase.Scaled rule first) : 0 ≤ phase.step := by
  cases phase with
  | bracketing count next last lastValue => exact (h.last_lt_next hf).1
  | zooming count b => exact le_rfl
  | accepted step => exact le_of_lt h

/-- Both ends of `b'` lie in `b`, and `b'` is half as wide. -/
structure Halves (b b' : Bracket ℝ) : Prop where
  low_mem : b'.low ∈ Set.uIcc b.low b.high
  high_mem : b'.high ∈ Set.uIcc b.low b.high
  width : |b'.high - b'.low| * 2 = |b.high - b.low|

theorem midpoint_mem (b : Bracket ℝ) : b.midpoint ∈ Set.uIcc b.low b.high := by
  rw [midpoint_eq, Set.mem_uIcc]
  rcases le_total b.low b.high with h | h
  · exact .inl ⟨by linarith, by linarith⟩
  · exact .inr ⟨by linarith, by linarith⟩

/-- The middle of a bracket is half its width away from both ends. -/
theorem abs_midpoint_sub (b : Bracket ℝ) :
    |b.midpoint - b.low| * 2 = |b.high - b.low| ∧ |b.high - b.midpoint| * 2 = |b.high - b.low| := by
  have h1 : b.midpoint - b.low = (b.high - b.low) / 2 := by rw [midpoint_eq]; ring
  have h2 : b.high - b.midpoint = (b.high - b.low) / 2 := by rw [midpoint_eq]; ring
  rw [h1, h2, abs_div, abs_two]
  constructor <;> ring

/-- Every bisection that does not end the search halves the bracket. -/
theorem Move.halves {count count' : ℕ} {b b' : Bracket ℝ}
    (hm : Move rule start t (zooming count b) (zooming count' b')) :
    count' = count + 1 ∧ Halves b b' := by
  have hmid := midpoint_mem b
  obtain ⟨hlow, hhigh⟩ := abs_midpoint_sub b
  cases hm with
  | shrink _ middle _ => exact ⟨rfl, Set.left_mem_uIcc, middle ▸ hmid, middle ▸ hlow⟩
  | lower _ middle _ _ _ _ => exact ⟨rfl, middle ▸ hmid, Set.right_mem_uIcc, middle ▸ hhigh⟩
  | flip _ middle _ _ _ _ =>
    exact ⟨rfl, middle ▸ hmid, Set.left_mem_uIcc, by rw [abs_sub_comm, middle]; exact hlow⟩

theorem Scaled.halves {count : ℕ} {b b' : Bracket ℝ} (h : (zooming count b).Scaled rule first)
    (hb : Halves b b') : (zooming (count + 1) b').Scaled rule first := by
  obtain ⟨k, hk, hwidth, hlow, hhigh⟩ := h
  have hsub := Set.uIcc_subset_Icc hlow hhigh
  refine ⟨k, hk, ?_, hsub hb.low_mem, hsub hb.high_mem⟩
  rw [← hwidth, ← hb.width, pow_succ]
  ring

/-- The ends of a bracket are not negative and not equal. -/
theorem Scaled.midpoint_pos {count : ℕ} {b : Bracket ℝ} (hf : 0 < first)
    (h : (zooming count b).Scaled rule first) : 0 < b.midpoint := by
  obtain ⟨k, -, hwidth, ⟨hlow, -⟩, hhigh, -⟩ := h
  have hfrom := stepBefore_nonneg hf k
  have hlt := stepBefore_lt hf k
  have hne : b.high ≠ b.low := by
    intro he
    rw [he, sub_self, abs_zero, zero_mul] at hwidth
    linarith
  rw [midpoint_eq]
  rcases hne.lt_or_gt with h | h <;> linarith

/-- Every step that is to be tried is positive. -/
theorem Scaled.pending_pos (hf : 0 < first) (h : phase.Scaled rule first) {a : ℝ}
    (hp : phase.pending rule = some a) : 0 < a := by
  cases phase with
  | bracketing count next last lastValue =>
    obtain ⟨-, rfl⟩ := pending_bracketing.mp hp
    obtain ⟨hnonneg, hlt⟩ := h.last_lt_next hf
    exact hnonneg.trans_lt hlt
  | zooming count b =>
    obtain ⟨-, rfl⟩ := pending_zooming.mp hp
    exact h.midpoint_pos hf
  | accepted step => cases hp

theorem Scaled.move (hf : 0 < first) (h : phase.Scaled rule first)
    (hm : Move rule start t phase phase') : phase'.Scaled rule first := by
  cases hm with
  | @overshoot count last lastValue budget high =>
    obtain ⟨hnext, hlast⟩ := h
    have hlt := stepBefore_lt hf count
    rw [hnext, hlast]
    exact ⟨count, budget, by rw [abs_of_pos (by linarith)]; ring, ⟨le_rfl, hlt.le⟩,
      ⟨hlt.le, le_rfl⟩⟩
  | @acceptDoubled count last lastValue budget decrease flat =>
    obtain ⟨hnext, -⟩ := h
    show 0 < t.step
    rw [hnext]
    positivity
  | @turn count last lastValue budget decrease below steep rising =>
    obtain ⟨hnext, hlast⟩ := h
    have hlt := stepBefore_lt hf count
    rw [hnext, hlast]
    exact ⟨count, budget, by rw [abs_of_neg (by linarith)]; ring, ⟨hlt.le, le_rfl⟩,
      ⟨le_rfl, hlt.le⟩⟩
  | double =>
    obtain ⟨hnext, -⟩ := h
    exact ⟨by rw [hnext, pow_succ]; ring, hnext⟩
  | shrink budget middle high => exact h.halves (Move.shrink budget middle high).halves.2
  | acceptBisected _ middle _ _ =>
    show 0 < t.step
    rw [middle]
    exact h.midpoint_pos hf
  | lower budget middle decrease below steep ahead =>
    exact h.halves (Move.lower budget middle decrease below steep ahead).halves.2
  | flip budget middle decrease below steep behind =>
    exact h.halves (Move.flip budget middle decrease below steep behind).halves.2

theorem scaled_initial (rule : StrongWolfe ℝ) (start : Slice ℝ) (first : ℝ) :
    (initial start first).Scaled rule first :=
  ⟨by simp, rfl⟩

theorem Reaches.scaled (hf : 0 < first) (h : Reaches rule start (initial start first) ts phase) :
    phase.Scaled rule first :=
  h.invariant (P := fun _ phase => phase.Scaled rule first) (scaled_initial rule start first)
    fun _ _ _ _ hs hm => hs.move hf hm

/-- All trials of a search are at positive steps. -/
theorem Reaches.steps_pos (hf : 0 < first) (h : Reaches rule start (initial start first) ts phase) :
    ∀ t ∈ ts, 0 < t.step := by
  have hboth : phase.Scaled rule first ∧ ∀ t ∈ ts, 0 < t.step := by
    refine h.invariant (P := fun ts phase => phase.Scaled rule first ∧ ∀ t ∈ ts, 0 < t.step)
      ⟨scaled_initial rule start first, by simp⟩ fun past t phase phase' hp hm => ?_
    refine ⟨hp.1.move hf hm, fun u hu => ?_⟩
    rcases List.mem_append.mp hu with hu | hu
    · exact hp.2 u hu
    · obtain rfl := List.mem_singleton.mp hu
      exact hp.1.pending_pos hf hm.pending
  exact hboth.2

end Phase

/-! ## What the trials at the ends of a bracket say -/

/-- Among the start and the trials `ts`, the trial `low` is a lowest of those that decrease the
value enough. If it is not the start then its slope is not flat enough. -/
structure Lowest (rule : StrongWolfe ℝ) (start : Slice ℝ) (ts : List (Trial ℝ)) (low : Trial ℝ) :
    Prop where
  mem : low ∈ start.origin :: ts
  decrease : rule.SufficientDecrease start low
  steep : low = start.origin ∨ ¬rule.FlatEnough start low
  le : ∀ u ∈ start.origin :: ts, rule.SufficientDecrease start u → low.value ≤ u.value

namespace Lowest

variable {low : Trial ℝ}

/-- A trial that is too high changes nothing. -/
theorem keep (h : Lowest rule start ts low)
    (high : ¬rule.SufficientDecrease start t ∨ low.value ≤ t.value) :
    Lowest rule start (ts ++ [t]) low where
  mem := List.mem_append_left [t] h.mem
  decrease := h.decrease
  steep := h.steep
  le := by
    intro u hu hdec
    rcases List.mem_append.mp (List.cons_append ▸ hu) with hu | hu
    · exact h.le u hu hdec
    · obtain rfl := List.mem_singleton.mp hu
      exact high.resolve_left (not_not_intro hdec)

/-- A trial that is not above the lowest one takes its place. -/
theorem replace (h : Lowest rule start ts low) (decrease : rule.SufficientDecrease start t)
    (below : t.value ≤ low.value) (steep : ¬rule.FlatEnough start t) :
    Lowest rule start (ts ++ [t]) t where
  mem := by simp
  decrease := decrease
  steep := .inr steep
  le := by
    intro u hu hdec
    rcases List.mem_append.mp (List.cons_append ▸ hu) with hu | hu
    · exact below.trans (h.le u hu hdec)
    · exact (List.mem_singleton.mp hu ▸ le_rfl)

end Lowest

/-- The trials `low` and `high` are at the ends of the bracket `b`. The slope at the low end, a
lowest trial, points to the high end; that one is too high. -/
structure Straddles (rule : StrongWolfe ℝ) (start : Slice ℝ) (ts : List (Trial ℝ)) (b : Bracket ℝ)
    (low high : Trial ℝ) : Prop extends Lowest rule start ts low where
  low_step : low.step = b.low
  low_value : low.value = b.lowValue
  high_mem : high ∈ start.origin :: ts
  high_step : high.step = b.high
  ahead : low.slope * (b.high - b.low) < 0
  high_worse : ¬rule.SufficientDecrease start high ∨ low.value ≤ high.value

namespace Phase

/-- While steps are doubled, the last trial is lowest and its slope points downhill. The ends of a
bracket are backed by trials. -/
def Sound (rule : StrongWolfe ℝ) (start : Slice ℝ) (ts : List (Trial ℝ)) : Phase ℝ → Prop
  | bracketing count _ last lastValue => ∃ low, Lowest rule start ts low ∧ low.step = last ∧
      low.value = lastValue ∧ low.slope < 0 ∧ (count = 0 → low = start.origin)
  | zooming _ b => ∃ low high, Straddles rule start ts b low high
  | accepted _ => True

theorem sound_initial (rule : StrongWolfe ℝ) (hslope : start.slope < 0) (first : ℝ) :
    (initial start first).Sound rule start [] := by
  refine ⟨start.origin, ⟨List.mem_cons_self, start.origin_decrease rule, .inl rfl, ?_⟩, rfl, rfl,
    hslope, fun _ => rfl⟩
  intro u hu _
  rw [List.mem_singleton.mp hu]

/-- While steps are doubled, a trial that is not too high is not above the one before. -/
theorem le_last {count : ℕ} {low : Trial ℝ} (hcount : count = 0 → low = start.origin)
    (below : 0 < count → ¬low.value ≤ t.value) (hstart : t.value ≤ start.origin.value) :
    t.value ≤ low.value := by
  rcases Nat.eq_zero_or_pos count with h0 | hpos
  · rw [hcount h0]; exact hstart
  · exact (not_le.mp (below hpos)).le

theorem Sound.move (hc₁ : 0 ≤ rule.c₁) (hc₂ : 0 ≤ rule.c₂) (hslope : start.slope < 0)
    (hf : 0 < first) (hs : phase.Scaled rule first) (h : phase.Sound rule start ts)
    (hm : Move rule start t phase phase') : phase'.Sound rule start (ts ++ [t]) := by
  have hmem : t ∈ start.origin :: (ts ++ [t]) := by simp
  -- A slope that is not flat enough is not zero.
  have hne : ¬rule.FlatEnough start t → t.slope ≠ 0 := by
    intro hsteep h0
    rw [flatEnough_iff, h0, abs_zero] at hsteep
    exact hsteep (by nlinarith)
  cases hm with
  | overshoot budget high =>
    obtain ⟨low, hlow, rfl, rfl, hfall, -⟩ := h
    obtain ⟨-, hlt⟩ := hs.last_lt_next hf
    have hworse : ¬rule.SufficientDecrease start t ∨ low.value ≤ t.value :=
      high.imp_right fun h => h.2
    exact ⟨low, t, hlow.keep hworse, rfl, rfl, hmem, rfl, by nlinarith, hworse⟩
  | acceptDoubled => trivial
  | turn budget decrease below steep rising =>
    obtain ⟨low, hlow, rfl, rfl, -, hcount⟩ := h
    obtain ⟨hnonneg, hlt⟩ := hs.last_lt_next hf
    have hpos : 0 < t.slope := rising.lt_of_ne' (hne steep)
    have hstart := decrease.le_start hc₁ hslope (hnonneg.trans_lt hlt)
    have hlower := le_last hcount below hstart
    exact ⟨t, low, hlow.replace decrease hlower steep, rfl, rfl, List.mem_append_left [t] hlow.mem,
      rfl, by nlinarith, .inr hlower⟩
  | @double count _ _ budget downhill below =>
    obtain ⟨low, hlow, rfl, rfl, -, hcount⟩ := h
    obtain ⟨hnonneg, hlt⟩ := hs.last_lt_next hf
    have hstart := downhill.decrease.le_start hc₁ hslope (hnonneg.trans_lt hlt)
    have hlower := le_last hcount below hstart
    exact ⟨t, hlow.replace downhill.decrease hlower downhill.steep, rfl, rfl,
      not_le.mp downhill.falling, fun h => absurd h count.succ_ne_zero⟩
  | shrink budget middle high =>
    obtain ⟨low, _, hb⟩ := h
    rw [← hb.low_value] at high
    refine ⟨low, t, hb.toLowest.keep high, hb.low_step, hb.low_value, hmem, rfl, ?_, high⟩
    have := hb.ahead
    rw [middle, midpoint_eq]
    linarith
  | acceptBisected => trivial
  | @lower _ b budget middle decrease below steep ahead =>
    obtain ⟨low, high, hb⟩ := h
    rw [← hb.low_value, not_le] at below
    refine ⟨t, high, hb.toLowest.replace decrease below.le steep, rfl, rfl,
      List.mem_append_left [t] hb.high_mem, hb.high_step, ?_,
      hb.high_worse.imp_right below.le.trans⟩
    show t.slope * (b.high - t.step) < 0
    rw [middle, midpoint_eq]
    linarith
  | @flip _ b budget middle decrease below steep behind =>
    obtain ⟨low, _, hb⟩ := h
    rw [← hb.low_value, not_le] at below
    refine ⟨t, low, hb.toLowest.replace decrease below.le steep, rfl, rfl,
      List.mem_append_left [t] hb.mem, hb.low_step, ?_, .inr below.le⟩
    have hwidth : b.high - b.low ≠ 0 := right_ne_zero_of_mul hb.ahead.ne
    have hpos : 0 < t.slope * (b.high - b.low) := behind.lt_of_ne' (mul_ne_zero (hne steep) hwidth)
    show t.slope * (b.low - t.step) < 0
    rw [middle, midpoint_eq]
    linarith

theorem Reaches.sound (hc₁ : 0 ≤ rule.c₁) (hc₂ : 0 ≤ rule.c₂) (hslope : start.slope < 0)
    (hf : 0 < first) (h : Reaches rule start (initial start first) ts phase) :
    phase.Sound rule start ts := by
  have hboth : phase.Scaled rule first ∧ phase.Sound rule start ts :=
    h.invariant (P := fun ts phase => phase.Scaled rule first ∧ phase.Sound rule start ts)
      ⟨scaled_initial rule start first, sound_initial rule hslope first⟩
      fun _ _ _ _ h hm => ⟨h.1.move hf hm, h.2.move hc₁ hc₂ hslope hf h.1 hm⟩
  exact hboth.2

end Phase

end Descent

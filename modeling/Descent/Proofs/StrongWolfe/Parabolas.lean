import Descent.Proofs.StrongWolfe.Existence

/-!
# Line searches along parabolas

In exact arithmetic, along a slice that is a parabola open upwards and falls at first. All that can
be said of a trial is then said by how far its step is from the lowest one.

* `ParabolicSlice`: the values and slopes of a parabola. `StrongWolfe.Spans`: the budgets reach its
  lowest step and can tell it apart.
* `Valley`, `Trial.OnParabola`: the same of a start and its trials, measured from the lowest step.
  What the two conditions and the comparison of two trials mean there (`OnParabola.value_le_iff`,
  `Valley.flatEnough_iff`, `Valley.sufficientDecrease_iff`).
* `Valley.mem_uIoo`: a bracket has the lowest step inside.
* `Phase.Reaches.accepts_in_valley`: a search ends with an accepted step. Doubling on and on would
  pass the lowest step, and a bracket that is as narrow as the acceptable steps would have one at
  its low end.
* `StrongWolfe.search_accepts_on_parabola`: the same for a whole search.
-/

namespace Descent

/-- The slice `value` with the derivative `slope` is a parabola, which has the slope `d` at its
start and the second derivative `q`. -/
structure ParabolicSlice (value slope : ℝ → ℝ) (d q : ℝ) : Prop where
  value_eq : ∀ t, 0 ≤ t → value t = value 0 + d * t + q / 2 * t ^ 2
  slope_eq : ∀ t, 0 ≤ t → slope t = d + q * t

/-- The budgets suffice for a parabola with its lowest point at the step `m`: the last doubling
reaches the steps which are flat enough, and the bisections can narrow a bracket down to their
width. -/
structure StrongWolfe.Spans (rule : StrongWolfe ℝ) (first m : ℝ) : Prop where
  doublings_pos : 1 ≤ rule.doublings
  reach : (1 - rule.c₂) * m ≤ 2 ^ (rule.doublings - 1) * first
  resolve : 1 ≤ 2 ^ rule.bisections * rule.c₂
  first_le : first ≤ 2 ^ rule.bisections * rule.c₂ * m

/-- The slice that starts here has the second derivative `q` and is lowest at the step `m`. -/
structure Valley (start : Slice ℝ) (q m : ℝ) : Prop where
  curved : 0 < q
  lowest_pos : 0 < m
  slope_eq : start.slope = -(q * m)

/-- A trial of this slice. -/
structure Trial.OnParabola (start : Slice ℝ) (q m : ℝ) (t : Trial ℝ) : Prop where
  value_eq : t.value = start.value + q / 2 * ((t.step - m) ^ 2 - m ^ 2)
  slope_eq : t.slope = q * (t.step - m)

variable {rule : StrongWolfe ℝ} {start : Slice ℝ} {first d q m : ℝ} {t u low high : Trial ℝ}
  {ts : List (Trial ℝ)} {phase : Phase ℝ} {b : Bracket ℝ}

namespace ParabolicSlice

variable {value slope : ℝ → ℝ} (h : ParabolicSlice value slope d q) (hq : 0 < q)
  (hstart : start.origin.On value slope)
include h hq hstart

/-- A parabola that falls at its start is lowest at `-d / q`. -/
theorem valley (hd : d < 0) : Valley start q (-d / q) where
  curved := hq
  lowest_pos := div_pos (neg_pos.mpr hd) hq
  slope_eq := by
    have hslope : start.slope = d + q * 0 := hstart.slope_eq.trans (h.slope_eq 0 le_rfl)
    rw [hslope, mul_div_cancel₀ (-d) hq.ne']
    ring

theorem onParabola (ht : t.On value slope) (hstep : 0 ≤ t.step) :
    t.OnParabola start q (-d / q) := by
  have hlowest : q * (-d / q) = -d := mul_div_cancel₀ (-d) hq.ne'
  have hvalue : start.value = value 0 := hstart.value_eq
  constructor
  · rw [ht.value_eq, h.value_eq t.step hstep, hvalue]
    linear_combination t.step * hlowest
  · rw [ht.slope_eq, h.slope_eq t.step hstep]
    linear_combination hlowest

end ParabolicSlice

/-! ## Single trials -/

/-- Of two trials the one closer to the lowest step is lower. -/
theorem Trial.OnParabola.value_le_iff (ht : t.OnParabola start q m) (hu : u.OnParabola start q m)
    (hq : 0 < q) : t.value ≤ u.value ↔ |t.step - m| ≤ |u.step - m| := by
  rw [ht.value_eq, hu.value_eq, add_le_add_iff_left, mul_le_mul_iff_right₀ (half_pos hq),
    sub_le_sub_iff_right, sq_le_sq]

namespace Valley

variable (hv : Valley start q m)
include hv

/-- The steps which are flat enough are those around the lowest one. -/
theorem flatEnough_iff (ht : t.OnParabola start q m) :
    rule.FlatEnough start t ↔ |t.step - m| ≤ rule.c₂ * m := by
  have hbound : -rule.c₂ * start.slope = q * (rule.c₂ * m) := by rw [hv.slope_eq]; ring
  rw [Descent.flatEnough_iff, ht.slope_eq, abs_mul, abs_of_pos hv.curved, hbound,
    mul_le_mul_iff_right₀ hv.curved]

/-- The line of sufficient decrease cuts the parabola at the start and once more. -/
theorem sufficientDecrease_iff (ht : t.OnParabola start q m) (hstep : 0 ≤ t.step)
    (hc₁ : rule.c₁ ≤ 1) :
    rule.SufficientDecrease start t ↔ t.step ≤ 2 * (1 - rule.c₁) * m := by
  have hcut : start.value + rule.c₁ * t.step * start.slope - t.value =
      q / 2 * t.step * (2 * (1 - rule.c₁) * m - t.step) := by
    rw [ht.value_eq, hv.slope_eq]
    ring
  rw [Descent.sufficientDecrease_iff, ← sub_nonneg, hcut]
  rcases hstep.eq_or_lt with hzero | hpos
  · have hm := hv.lowest_pos
    have : 0 ≤ 2 * (1 - rule.c₁) * m := mul_nonneg (by linarith) hm.le
    simp [← hzero, this]
  · have hq := hv.curved
    rw [mul_nonneg_iff_of_pos_left (by positivity), sub_nonneg]

/-! ## Brackets -/

/-- The low end of a bracket is too far from the lowest step to be flat enough. -/
theorem lt_abs_low_sub (hlow : Lowest rule start ts low) (hon : low.OnParabola start q m)
    (hc₂ : rule.c₂ < 1) : rule.c₂ * m < |low.step - m| := by
  have hm := hv.lowest_pos
  rcases hlow.steep with horigin | hsteep
  · rw [horigin]
    show rule.c₂ * m < |0 - m|
    rw [zero_sub, abs_neg, abs_of_pos hm]
    exact mul_lt_of_lt_one_left hm hc₂
  · rwa [hv.flatEnough_iff hon, not_le] at hsteep

/-- The lowest step is strictly between the ends of a bracket. -/
theorem mem_uIoo (hb : Straddles rule start ts b low high) (hlow : low.OnParabola start q m)
    (hhigh : high.OnParabola start q m) (hnonneg : 0 ≤ b.low ∧ 0 ≤ b.high) (hc₂ : 0 < rule.c₂)
    (hc : 2 * rule.c₁ + rule.c₂ ≤ 1) : m ∈ Set.uIoo b.low b.high := by
  have hm := hv.lowest_pos
  have hahead : (b.low - m) * (b.high - b.low) < 0 := by
    have h := hb.ahead
    rw [hlow.slope_eq, hb.low_step, mul_assoc] at h
    exact neg_of_mul_neg_right h hv.curved.le
  have hdecrease : b.low ≤ 2 * (1 - rule.c₁) * m := by
    rw [← hb.low_step] at hnonneg ⊢
    exact (hv.sufficientDecrease_iff hlow hnonneg.1 (by linarith)).mp hb.decrease
  -- A high end beyond the cut is beyond the lowest step, and another one is at least as far from it
  -- as the low end.
  have hworse : 2 * (1 - rule.c₁) * m < b.high ∨ |b.low - m| ≤ |b.high - m| := by
    refine hb.high_worse.imp (fun h => ?_) fun h => ?_
    · rw [← hb.high_step] at hnonneg ⊢
      rwa [hv.sufficientDecrease_iff hhigh hnonneg.2 (by linarith), not_le] at h
    · rwa [hlow.value_le_iff hhigh hv.curved, hb.low_step, hb.high_step] at h
  have hcut : m ≤ 2 * (1 - rule.c₁) * m := le_mul_of_one_le_left hm.le (by linarith)
  rcases lt_trichotomy b.low m with hleft | heq | hright
  · have hup : b.low < b.high := sub_pos.mp (pos_of_mul_neg_right hahead (sub_neg.mpr hleft).le)
    refine Set.mem_uIoo_of_lt hleft ?_
    rcases hworse with hbeyond | hfar
    · exact hcut.trans_lt hbeyond
    · rw [abs_of_neg (sub_neg.mpr hleft)] at hfar
      rcases le_abs.mp hfar with h | h <;> linarith
  · rw [heq, sub_self, zero_mul] at hahead
    exact absurd hahead (lt_irrefl 0)
  · have hdown : b.high < b.low := sub_neg.mp (neg_of_mul_neg_right hahead (sub_pos.mpr hright).le)
    refine Set.mem_uIoo_of_gt ?_ hright
    rcases hworse with hbeyond | hfar
    · linarith
    · rw [abs_of_pos (sub_pos.mpr hright)] at hfar
      rcases le_abs.mp hfar with h | h <;> linarith

/-! ## Budgets -/

/-- A bracket that contains the lowest step was not too wide at first. -/
theorem first_width_le (hspans : rule.Spans first m) {k : ℕ} (hk : stepBefore first k < m) :
    2 ^ k * first - stepBefore first k ≤ 2 ^ rule.bisections * rule.c₂ * m := by
  cases k with
  | zero => simpa [stepBefore] using hspans.first_le
  | succ k =>
    rw [stepBefore] at hk ⊢
    -- The step before is as long as the bracket is wide.
    calc 2 ^ (k + 1) * first - 2 ^ k * first = 2 ^ k * first := by rw [pow_succ]; ring
      _ ≤ 1 * m := by rw [one_mul]; exact hk.le
      _ ≤ 2 ^ rule.bisections * rule.c₂ * m :=
        mul_le_mul_of_nonneg_right hspans.resolve hv.lowest_pos.le

variable (htrials : ∀ t ∈ start.origin :: ts, 0 ≤ t.step → t.OnParabola start q m)
  (hspans : rule.Spans first m) (hf : 0 < first)
include htrials hspans hf

/-- The last doubling does not stop short of the steps which are flat enough. -/
theorem not_sound_bracketing (hc₂ : rule.c₂ < 1) {next last lastValue : ℝ}
    (hscaled : (Phase.bracketing rule.doublings next last lastValue).Scaled rule first) :
    ¬(Phase.bracketing rule.doublings next last lastValue).Sound rule start ts := by
  rintro ⟨low, hlow, rfl, -, hfalling, -⟩
  obtain ⟨-, hstep⟩ := hscaled
  have hon := htrials low hlow.mem (hstep ▸ stepBefore_nonneg hf _)
  have hleft : low.step - m < 0 := by
    rw [hon.slope_eq] at hfalling
    exact neg_of_mul_neg_right hfalling hv.curved.le
  have hfar := hv.lt_abs_low_sub hlow hon hc₂
  obtain ⟨k, hk⟩ := Nat.exists_eq_add_of_le' hspans.doublings_pos
  have hreach := hspans.reach
  rw [hk, stepBefore] at hstep
  rw [hk, Nat.add_sub_cancel, ← hstep] at hreach
  rw [abs_of_neg hleft] at hfar
  linarith

/-- The low end of a bracket is flat enough before the bisections are used up. -/
theorem not_sound_zooming (hc₂ : 0 < rule.c₂ ∧ rule.c₂ < 1) (hc : 2 * rule.c₁ + rule.c₂ ≤ 1)
    {count : ℕ} (hcount : rule.bisections ≤ count)
    (hscaled : (Phase.zooming count b).Scaled rule first) :
    ¬(Phase.zooming count b).Sound rule start ts := by
  rintro ⟨low, high, hb⟩
  obtain ⟨k, -, hwidth, hlow, hhigh⟩ := hscaled
  have hnonneg : 0 ≤ b.low ∧ 0 ≤ b.high :=
    ⟨(stepBefore_nonneg hf k).trans hlow.1, (stepBefore_nonneg hf k).trans hhigh.1⟩
  have hlow_on := htrials low hb.mem (hb.low_step ▸ hnonneg.1)
  have hhigh_on := htrials high hb.high_mem (hb.high_step ▸ hnonneg.2)
  have hinside := hv.mem_uIoo hb hlow_on hhigh_on hnonneg hc₂.1 hc
  have hroom := hv.first_width_le hspans (Set.uIoo_subset_Ioo hlow hhigh hinside).1
  have hwide : rule.c₂ * m < |b.high - b.low| := by
    refine (hv.lt_abs_low_sub hb.toLowest hlow_on hc₂.2).trans_le ?_
    rw [hb.low_step, abs_sub_comm]
    exact Set.abs_sub_left_of_mem_uIcc (Set.uIoo_subset_uIcc_self hinside)
  have hnarrow : 2 ^ rule.bisections * rule.c₂ * m < 2 ^ rule.bisections * rule.c₂ * m := by
    calc 2 ^ rule.bisections * rule.c₂ * m
        = rule.c₂ * m * 2 ^ rule.bisections := by ring
      _ < |b.high - b.low| * 2 ^ rule.bisections := by gcongr
      _ ≤ |b.high - b.low| * 2 ^ count := by gcongr; exact one_le_two
      _ = 2 ^ k * first - stepBefore first k := hwidth
      _ ≤ 2 ^ rule.bisections * rule.c₂ * m := hroom
  exact lt_irrefl _ hnarrow

end Valley

/-- With budgets that suffice a search along a parabola ends with a positive step that satisfies
both conditions. -/
theorem Phase.Reaches.accepts_in_valley (h : Reaches rule start (initial start first) ts phase)
    (hstop : phase.pending rule = none) (hv : Valley start q m)
    (htrials : ∀ t ∈ start.origin :: ts, 0 ≤ t.step → t.OnParabola start q m)
    (hspans : rule.Spans first m) (hc₁ : 0 ≤ rule.c₁) (hc₂ : 0 < rule.c₂ ∧ rule.c₂ < 1)
    (hc : 2 * rule.c₁ + rule.c₂ ≤ 1) (hf : 0 < first) :
    ∃ t ∈ ts, t.step = phase.step ∧ 0 < t.step ∧ rule.SufficientDecrease start t ∧
      rule.FlatEnough start t := by
  have hslope : start.slope < 0 := by
    rw [hv.slope_eq]
    exact neg_neg_of_pos (mul_pos hv.curved hv.lowest_pos)
  have hscaled := h.scaled hf
  have hsound := h.sound hc₁ hc₂.1.le hslope hf
  refine h.accepts_of hstop hf ?_ ?_
  · rintro next last lastValue rfl
    exact hv.not_sound_bracketing htrials hspans hf hc₂.2 hscaled hsound
  · rintro count b hcount rfl
    exact hv.not_sound_zooming htrials hspans hf hc₂ hc hcount hscaled hsound

/-! ## Whole searches -/

open Space (dot ray)

section Search

variable {σ V : Type} [Space V ℝ] [Coordinatized V ℝ] [ExactSpace V] {f : Objective σ V ℝ}
  {value : V → ℝ} {gradient : V → V} {direction : V} {current : Point V ℝ}

/-- A search returns, and all its trials are on the slice of the function that the objective
computes. -/
theorem StrongWolfe.search_on_slice (hf : f.Computes value gradient)
    (hkeep : ∀ y, Space.dimension y = Space.dimension current.x →
      Space.dimension (gradient y) = Space.dimension y)
    (hvalue : current.value = value current.x) (hgradient : current.gradient = gradient current.x)
    (hdim : Space.dimension current.x = Space.dimension direction) (rule : StrongWolfe ℝ)
    (first : ℝ) (next : Point V ℝ) (samples : Recorder V) (session : Session σ V ℝ) :
    ∃ (found : Search V ℝ) (session' : Session σ V ℝ) (qs : List (Probe V ℝ)),
      rule.search f direction current next first samples session = .ok found session' ∧
      session.Extends f (qs.map (·.evaluation)) session' ∧
      Phase.Reaches rule (current.slice direction) (.initial (current.slice direction) first)
        (qs.map (·.trial)) found.phase ∧
      found.phase.pending rule = none ∧
      ∀ t ∈ (current.slice direction).origin :: qs.map (·.trial),
        t.On (fun t => value (ray current.x direction t))
          (fun t => dot (gradient (ray current.x direction t)) direction) := by
  have hanswers : f.Answers (Space.dimension current.x) fun _ => True :=
    Objective.Computes.answers (F := ⟨value, gradient⟩) hf fun y hy => (hkeep y hy).trans hy
  have hdg : Space.dimension current.gradient = Space.dimension current.x := by
    rw [hgradient]; exact hkeep current.x rfl
  obtain ⟨found, session', hrun⟩ := search_total hanswers rfl hdim.symm rule hdg next
    trivial first samples session
  obtain ⟨qs, middle, -, hd, rfl⟩ := search_ok hrun
  exact ⟨found, _, qs, hrun, hd.calls.setLog _, hd.reaches, hd.stopped,
    trials_on hf hvalue hgradient hdim hd.along hd.calls⟩

/-- A search along a parabola that is open upwards and falls at first returns, with budgets that
suffice, a positive step which satisfies both strong Wolfe conditions, if the line of sufficient
decrease leaves room for all steps which are flat enough. The objective may be any whose answers
depend on the point alone, and its function any that has this parabola along the direction. -/
theorem StrongWolfe.search_accepts_on_parabola {rule : StrongWolfe ℝ} {first d q : ℝ}
    (hf : f.Computes value gradient)
    (hkeep : ∀ y, Space.dimension y = Space.dimension current.x →
      Space.dimension (gradient y) = Space.dimension y)
    (hvalue : current.value = value current.x) (hgradient : current.gradient = gradient current.x)
    (hdim : Space.dimension current.x = Space.dimension direction)
    (hslice : ParabolicSlice (fun t => value (ray current.x direction t))
      (fun t => dot (gradient (ray current.x direction t)) direction) d q)
    (hd : d < 0) (hq : 0 < q) (hfirst : 0 < first) (hc₁ : 0 ≤ rule.c₁)
    (hc₂ : 0 < rule.c₂ ∧ rule.c₂ < 1) (hc : 2 * rule.c₁ + rule.c₂ ≤ 1)
    (hspans : rule.Spans first (-d / q)) (next : Point V ℝ) (samples : Recorder V)
    (session : Session σ V ℝ) :
    ∃ found session',
      rule.search f direction current next first samples session = .ok found session' ∧
      0 < found.step ∧
      value (ray current.x direction found.step) ≤
        value current.x + rule.c₁ * found.step * dot (gradient current.x) direction ∧
      |dot (gradient (ray current.x direction found.step)) direction| ≤
        -rule.c₂ * dot (gradient current.x) direction := by
  obtain ⟨found, session', qs, hrun, -, hreaches, hstop, hon⟩ :=
    search_on_slice hf hkeep hvalue hgradient hdim rule first next samples session
  have hstart := hon _ List.mem_cons_self
  have hv := hslice.valley hq hstart hd
  have htrials : ∀ t ∈ (current.slice direction).origin :: qs.map (·.trial), 0 ≤ t.step →
      t.OnParabola (current.slice direction) q (-d / q) :=
    fun t ht => hslice.onParabola hq hstart (hon t ht)
  obtain ⟨t, ht, hstep, hpos, hdec, hflat⟩ :=
    hreaches.accepts_in_valley hstop hv htrials hspans hc₁ hc₂ hc hfirst
  have hto := hon t (List.mem_cons_of_mem _ ht)
  rw [Descent.sufficientDecrease_iff, hto.value_eq] at hdec
  rw [Descent.flatEnough_iff, hto.slope_eq] at hflat
  rw [← hvalue, ← hgradient]
  refine ⟨found, session', hrun, ?_⟩
  rw [show found.step = t.step from hstep.symm]
  exact ⟨hpos, hdec, hflat⟩

end Search

/-- From the height `1` in the square a search with the first step `3.5` finds a step that is
acceptable. -/
theorem search_accepts_on_parabola_of_square :
    ∃ found session',
      coarse.search square (-1) (squareField.point 1) (squareField.point 1) 3.5 none
        { state := 0 } = .ok found session' ∧
      0 < found.step ∧
      (1 - found.step) * (1 - found.step) ≤ 1 - 0.2 * found.step ∧
      |(1 - found.step) + (1 - found.step)| ≤ 1 := by
  have hdim : Space.dimension (squareField.point 1).x = Space.dimension (-1 : ℝ) := rfl
  have hslice : ParabolicSlice (fun t => squareField.value (ray (1 : ℝ) (-1) t))
      (fun t => dot (squareField.gradient (ray (1 : ℝ) (-1) t)) (-1)) (-2) 2 := by
    constructor <;> intro t _ <;> simp only [squareField, ray_line, dot_line] <;> ring
  have hspans : coarse.Spans 3.5 (-(-2) / 2) := by
    constructor <;> norm_num [coarse]
  obtain ⟨found, session', hrun, hpos, hdec, hflat⟩ :=
    StrongWolfe.search_accepts_on_parabola square_computes (fun _ _ => rfl) rfl rfl hdim hslice
      (by norm_num) (by norm_num) (by norm_num) (by norm_num [coarse]) (by norm_num [coarse])
      (by norm_num [coarse]) hspans (squareField.point 1) none { state := 0 }
  refine ⟨found, session', hrun, hpos, ?_, ?_⟩
  · simp only [coarse, squareField, ScalarField.point, ray_line, dot_line] at hdec
    linarith
  · simp only [coarse, squareField, ScalarField.point, ray_line, dot_line] at hflat
    rw [mul_neg_one, abs_neg, neg_one_mul, ← sub_eq_add_neg] at hflat
    linarith

end Descent

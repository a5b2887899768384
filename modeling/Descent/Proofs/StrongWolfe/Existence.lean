import Descent.Proofs.StrongWolfe.Acceptance
import Descent.Proofs.StrongWolfe.Bracket
import Descent.Proofs.StrongWolfe.Slices

/-!
# When a line search finds a step

In exact arithmetic and along a smooth slice that is bounded below.

* `SmoothSlice`: the values of a slice lie below a parabola through each of its points, and above a
  constant.
* `StrongWolfe.Affords`: the budgets suffice for such a slice.
* `Straddles.width`: a bracket along such a slice cannot be narrow.
* `Phase.Reaches.accepts`: a search with large enough budgets ends with an accepted step. Doubling
  on and on would pass the lower bound, bisecting on and on would make the bracket too narrow.
* `StrongWolfe.search_accepts`: the same for a whole search.
-/

namespace Descent

/-- The slice `value`, with the derivative `slope`, lies below parabolas with the second derivative
`L` and above `m`. -/
structure SmoothSlice (value slope : ℝ → ℝ) (L m : ℝ) : Prop where
  below_parabola : ∀ s t, 0 ≤ s → 0 ≤ t →
    value t ≤ value s + slope s * (t - s) + L / 2 * (t - s) ^ 2
  lower_bound : ∀ t, 0 ≤ t → m ≤ value t

/-- A trial of the slice `value` with the derivative `slope`. -/
structure Trial.On (value slope : ℝ → ℝ) (t : Trial ℝ) : Prop where
  value_eq : t.value = value t.step
  slope_eq : t.slope = slope t.step

/-- The budgets suffice for a slice with the bounds `L` and `m`: the last doubling would take the
line of sufficient decrease below `m`, and bisections can make every bracket narrow. -/
structure StrongWolfe.Affords (rule : StrongWolfe ℝ) (start : Slice ℝ) (first L m : ℝ) : Prop where
  doublings_pos : 1 ≤ rule.doublings
  fall : start.value - m < 2 ^ (rule.doublings - 1) * first * rule.c₁ * |start.slope|
  narrow : L * 2 ^ (rule.doublings - 1) * first ≤
    2 ^ (rule.bisections + 1) * (rule.c₂ - rule.c₁) * |start.slope|

variable {rule : StrongWolfe ℝ} {start : Slice ℝ} {first L m : ℝ} {value slope : ℝ → ℝ}
  {ts : List (Trial ℝ)} {phase : Phase ℝ}

/-- The low end of a bracket is steeper than the conditions allow. -/
theorem Lowest.steep_abs {low : Trial ℝ} (h : Lowest rule start ts low) (hc₂ : rule.c₂ < 1)
    (hslope : start.slope < 0) : rule.c₂ * |start.slope| < |low.slope| := by
  have hpos : 0 < |start.slope| := abs_pos.mpr hslope.ne
  rcases h.steep with horigin | hsteep
  · rw [horigin]
    show rule.c₂ * |start.slope| < |start.slope|
    nlinarith
  · rw [flatEnough_iff, not_le] at hsteep
    rw [abs_of_neg hslope]
    linarith

/-- Along a bracket the slice falls at most `c₁` times as steeply as at its start. -/
theorem Straddles.fall_le {b : Bracket ℝ} {low high : Trial ℝ}
    (h : Straddles rule start ts b low high) (hc₁ : 0 < rule.c₁) :
    low.value - rule.c₁ * |start.slope| * |b.high - b.low| ≤ high.value := by
  have hline : 0 ≤ rule.c₁ * |start.slope| * |b.high - b.low| := by positivity
  rcases h.high_worse with hhigh | hhigh
  · have hlow := sufficientDecrease_iff.mp h.decrease
    rw [sufficientDecrease_iff, not_le, h.high_step] at hhigh
    rw [h.low_step] at hlow
    have hdiff : -(rule.c₁ * |start.slope| * |b.high - b.low|) ≤
        rule.c₁ * start.slope * (b.high - b.low) := by
      have := neg_abs_le (rule.c₁ * start.slope * (b.high - b.low))
      rwa [abs_mul, abs_mul, abs_of_pos hc₁] at this
    linarith
  · linarith

/-- The slice must turn inside a bracket, from the slope at its low end to less than that of the
line of sufficient decrease. For that it takes some room. -/
theorem Straddles.width {b : Bracket ℝ} {low high : Trial ℝ}
    (h : Straddles rule start ts b low high) (hsmooth : SmoothSlice value slope L m)
    (hlow : low.On value slope) (hhigh : high.On value slope) (hb : 0 ≤ b.low ∧ 0 ≤ b.high)
    (hc₁ : 0 < rule.c₁) (hc₂ : rule.c₂ < 1) (hslope : start.slope < 0) :
    2 * (rule.c₂ - rule.c₁) * |start.slope| < L * |b.high - b.low| := by
  have hup := hsmooth.below_parabola b.low b.high hb.1 hb.2
  rw [← h.low_step, ← hlow.value_eq, ← hlow.slope_eq, h.low_step, ← h.high_step, ← hhigh.value_eq,
    h.high_step] at hup
  have hahead : low.slope * (b.high - b.low) = -(|low.slope| * |b.high - b.low|) := by
    rw [← abs_mul, abs_of_neg h.ahead, neg_neg]
  have hpos : 0 < |b.high - b.low| := abs_pos.mpr (right_ne_zero_of_mul h.ahead.ne)
  have hsteep := h.steep_abs hc₂ hslope
  have hfall := h.fall_le hc₁
  rw [hahead, ← sq_abs (b.high - b.low)] at hup
  have hdiv : (|low.slope| - rule.c₁ * |start.slope|) * |b.high - b.low| ≤
      L / 2 * |b.high - b.low| * |b.high - b.low| := by linarith
  have := le_of_mul_le_mul_right hdiv hpos
  linarith

namespace Phase

/-- The doublings are not used up without a bracket. -/
theorem not_sound_bracketing (hsmooth : SmoothSlice value slope L m)
    (htrials : ∀ t ∈ start.origin :: ts, t.On value slope) (hafford : rule.Affords start first L m)
    (hslope : start.slope < 0) (hf : 0 < first) {next last lastValue : ℝ}
    (hscaled : (bracketing rule.doublings next last lastValue).Scaled rule first) :
    ¬(bracketing rule.doublings next last lastValue).Sound rule start ts := by
  rintro ⟨low, hlow, rfl, -, -, -⟩
  obtain ⟨-, hstep⟩ := hscaled
  obtain ⟨k, hk⟩ := Nat.exists_eq_add_of_le' hafford.doublings_pos
  have hfall := hafford.fall
  rw [hk, stepBefore] at hstep
  rw [hk, Nat.add_sub_cancel, abs_of_neg hslope] at hfall
  have hdec := sufficientDecrease_iff.mp hlow.decrease
  have hbound : m ≤ low.value := by
    rw [(htrials low hlow.mem).value_eq]
    exact hsmooth.lower_bound _ (by rw [hstep]; positivity)
  rw [hstep] at hdec
  linarith

/-- The bisections are not used up. -/
theorem not_sound_zooming (hsmooth : SmoothSlice value slope L m)
    (htrials : ∀ t ∈ start.origin :: ts, t.On value slope) (hafford : rule.Affords start first L m)
    (hc₁ : 0 < rule.c₁) (hc : rule.c₁ < rule.c₂) (hc₂ : rule.c₂ < 1) (hslope : start.slope < 0)
    (hf : 0 < first) {count : ℕ} {b : Bracket ℝ} (hcount : rule.bisections ≤ count)
    (hscaled : (zooming count b).Scaled rule first) : ¬(zooming count b).Sound rule start ts := by
  rintro ⟨low, high, hb⟩
  obtain ⟨k, hk, hwidth, ⟨hlow, -⟩, hhigh, -⟩ := hscaled
  have hnonneg := stepBefore_nonneg hf k
  have hroom := hb.width hsmooth (htrials low hb.mem) (htrials high hb.high_mem)
    ⟨hnonneg.trans hlow, hnonneg.trans hhigh⟩ hc₁ hc₂ hslope
  have hL : 0 < L := by
    refine pos_of_mul_pos_left (lt_of_le_of_lt ?_ hroom) (abs_nonneg _)
    have := sub_pos.mpr hc
    positivity
  have hnarrow : 2 ^ (rule.bisections + 1) * (rule.c₂ - rule.c₁) * |start.slope| <
      L * 2 ^ (rule.doublings - 1) * first := by
    calc 2 ^ (rule.bisections + 1) * (rule.c₂ - rule.c₁) * |start.slope|
        = 2 * (rule.c₂ - rule.c₁) * |start.slope| * 2 ^ rule.bisections := by rw [pow_succ]; ring
      _ < L * |b.high - b.low| * 2 ^ rule.bisections := by gcongr
      _ ≤ L * |b.high - b.low| * 2 ^ count := by gcongr; exact one_le_two
      _ = L * (2 ^ k * first - stepBefore first k) := by rw [mul_assoc, hwidth]
      _ ≤ L * (2 ^ (rule.doublings - 1) * first) := by gcongr; exact sub_stepBefore_le hf hk
      _ = L * 2 ^ (rule.doublings - 1) * first := by rw [mul_assoc]
  exact hafford.narrow.not_gt hnarrow

/-- A search ends with a positive step that satisfies both conditions, unless it ends because the
doublings or the bisections are used up. -/
theorem Reaches.accepts_of (h : Reaches rule start (initial start first) ts phase)
    (hstop : phase.pending rule = none) (hf : 0 < first)
    (hbracketing : ∀ next last lastValue, phase ≠ bracketing rule.doublings next last lastValue)
    (hzooming : ∀ count b, rule.bisections ≤ count → phase ≠ zooming count b) :
    ∃ t ∈ ts, t.step = phase.step ∧ 0 < t.step ∧ rule.SufficientDecrease start t ∧
      rule.FlatEnough start t := by
  have hscaled := h.scaled hf
  have hrecounts := h.recounts
  cases phase with
  | bracketing count next last lastValue =>
    obtain ⟨-, hle, -⟩ := hrecounts
    obtain rfl : count = rule.doublings := hle.antisymm (pending_bracketing_eq_none.mp hstop)
    exact absurd rfl (hbracketing next last lastValue)
  | zooming count b => exact absurd rfl (hzooming count b (pending_zooming_eq_none.mp hstop))
  | accepted step =>
    obtain ⟨past, t, rfl, rfl, hdec, hflat⟩ := hrecounts
    exact ⟨t, by simp, rfl, hscaled, hdec, hflat⟩

/-- With budgets that suffice a search along a smooth slice ends with a positive step that satisfies
both conditions. -/
theorem Reaches.accepts (h : Reaches rule start (initial start first) ts phase)
    (hstop : phase.pending rule = none) (hsmooth : SmoothSlice value slope L m)
    (htrials : ∀ t ∈ start.origin :: ts, t.On value slope) (hafford : rule.Affords start first L m)
    (hc₁ : 0 < rule.c₁) (hc : rule.c₁ < rule.c₂) (hc₂ : rule.c₂ < 1) (hslope : start.slope < 0)
    (hf : 0 < first) :
    ∃ t ∈ ts, t.step = phase.step ∧ 0 < t.step ∧ rule.SufficientDecrease start t ∧
      rule.FlatEnough start t := by
  have hscaled := h.scaled hf
  have hsound := h.sound hc₁.le (hc₁.trans hc).le hslope hf
  refine h.accepts_of hstop hf ?_ ?_
  · rintro next last lastValue rfl
    exact not_sound_bracketing hsmooth htrials hafford hslope hf hscaled hsound
  · rintro count b hcount rfl
    exact not_sound_zooming hsmooth htrials hafford hc₁ hc hc₂ hslope hf hcount hscaled hsound

end Phase

/-! ## Whole searches -/

open Space (dot ray)

section Search

variable {σ V : Type} [Space V ℝ] [Coordinatized V ℝ] [ExactSpace V] {f : Objective σ V ℝ}
  {value : V → ℝ} {gradient : V → V} {direction : V} {current : Point V ℝ}

/-- The start of a search and its probes are trials of one slice. -/
theorem trials_on (hf : f.Computes value gradient) (hvalue : current.value = value current.x)
    (hgradient : current.gradient = gradient current.x)
    (hdim : Space.dimension current.x = Space.dimension direction) {qs : List (Probe V ℝ)}
    {session session' : Session σ V ℝ} (halong : ∀ q ∈ qs, q.Along current.x direction)
    (hcalls : session.Extends f (qs.map (·.evaluation)) session') :
    ∀ t ∈ (current.slice direction).origin :: qs.map (·.trial),
      t.On (fun t => value (ray current.x direction t))
        (fun t => dot (gradient (ray current.x direction t)) direction) := by
  refine List.forall_mem_cons.mpr ⟨⟨?_, ?_⟩, ?_⟩
  · show current.value = value (ray current.x direction 0)
    rw [ExactSpace.ray_zero hdim, hvalue]
  · show dot current.gradient direction = dot (gradient (ray current.x direction 0)) direction
    rw [ExactSpace.ray_zero hdim, hgradient]
  · intro t ht
    obtain ⟨q, hq, rfl⟩ := List.mem_map.mp ht
    have hq' := halong q hq
    obtain ⟨hv, hg⟩ := hcalls.calls.computed hf q.evaluation (List.mem_map_of_mem hq)
    rw [hq'.x_eq] at hv hg
    exact ⟨hq'.value_eq.trans hv, by rw [hq'.slope_eq, hg]⟩

/-- A search along a smooth slice that is bounded below returns, with budgets that suffice, a
positive step which satisfies both strong Wolfe conditions. The objective may be any whose answers
depend on the point alone. -/
theorem StrongWolfe.search_accepts {rule : StrongWolfe ℝ} {first L m : ℝ}
    (hf : f.Computes value gradient)
    (hkeep : ∀ y, Space.dimension y = Space.dimension current.x →
      Space.dimension (gradient y) = Space.dimension y)
    (hvalue : current.value = value current.x) (hgradient : current.gradient = gradient current.x)
    (hdim : Space.dimension current.x = Space.dimension direction)
    (hslope : dot current.gradient direction < 0)
    (hsmooth : SmoothSlice (fun t => value (ray current.x direction t))
      (fun t => dot (gradient (ray current.x direction t)) direction) L m)
    (hfirst : 0 < first) (hc₁ : 0 < rule.c₁) (hc : rule.c₁ < rule.c₂) (hc₂ : rule.c₂ < 1)
    (hafford : rule.Affords (current.slice direction) first L m)
    (next : Point V ℝ) (samples : Recorder V) (session : Session σ V ℝ) :
    ∃ found session',
      rule.search f direction current next first samples session = .ok found session' ∧
      0 < found.step ∧
      value (ray current.x direction found.step) ≤
        value current.x + rule.c₁ * found.step * dot (gradient current.x) direction ∧
      |dot (gradient (ray current.x direction found.step)) direction| ≤
        -rule.c₂ * dot (gradient current.x) direction := by
  have hanswers : f.Answers (Space.dimension current.x) fun _ => True := by
    intro y buffer st hy _
    rw [hf y buffer st]
    exact ⟨(hkeep y hy).trans hy, trivial⟩
  have hdg : Space.dimension current.gradient = Space.dimension current.x := by
    rw [hgradient]; exact hkeep current.x rfl
  obtain ⟨found, session', hrun⟩ := search_total hanswers rfl hdim.symm rule hdg next
    trivial first samples session
  obtain ⟨qs, middle, -, hd, -⟩ := search_ok hrun
  have hon := trials_on hf hvalue hgradient hdim hd.along hd.calls
  obtain ⟨t, ht, hstep, hpos, hdec, hflat⟩ := hd.reaches.accepts hd.stopped hsmooth hon hafford hc₁
    hc hc₂ hslope hfirst
  have hto := hon t (List.mem_cons_of_mem _ ht)
  rw [sufficientDecrease_iff, hto.value_eq] at hdec
  rw [flatEnough_iff, hto.slope_eq] at hflat
  rw [← hvalue, ← hgradient]
  refine ⟨found, session', hrun, ?_⟩
  rw [show found.step = t.step from hstep.symm]
  exact ⟨hpos, hdec, hflat⟩

end Search

/-- The square, which counts its calls. -/
noncomputable def square : Objective ℕ ℝ ℝ := fun x _ => do
  modify (· + 1)
  return (x * x, x + x)

/-- The function that `square` computes. -/
noncomputable def squareField : ScalarField ℝ ℝ where
  value x := x * x
  gradient x := x + x

theorem square_computes : square.Computes squareField.value squareField.gradient :=
  fun _ _ _ => rfl

/-- A point from which the square falls to the left. -/
noncomputable def squareStart : Point ℝ ℝ where
  x := 1
  value := 1
  gradient := 1 + 1

/-- Constants and budgets that suffice from there. -/
noncomputable def coarse : StrongWolfe ℝ where
  c₁ := 0.1
  c₂ := 0.5
  doublings := 4
  bisections := 4

theorem coarse_affords_square : coarse.Affords (squareStart.slice (-1)) 1 2 0 where
  doublings_pos := by decide
  fall := by norm_num [coarse, squareStart, Point.slice]
  narrow := by norm_num [coarse, squareStart, Point.slice]

theorem search_accepts_on_square :
    ∃ found session',
      coarse.search square (-1) squareStart squareStart 1 none { state := 0 } = .ok found session' ∧
      0 < found.step ∧
      (1 - found.step) * (1 - found.step) ≤ 1 - 0.2 * found.step ∧
      |(1 - found.step) + (1 - found.step)| ≤ 1 := by
  have hcomputes : square.Computes (fun x => x * x) (fun x => x + x) := fun _ _ _ => rfl
  have hvalue : squareStart.value = squareStart.x * squareStart.x := by norm_num [squareStart]
  have hgradient : squareStart.gradient = squareStart.x + squareStart.x := rfl
  have hdim : Space.dimension squareStart.x = Space.dimension (-1 : ℝ) := rfl
  have hslope : dot squareStart.gradient (-1) < 0 := by norm_num [squareStart]
  have hsmooth : SmoothSlice (fun t => ray squareStart.x (-1) t * ray squareStart.x (-1) t)
      (fun t => dot (ray squareStart.x (-1) t + ray squareStart.x (-1) t) (-1)) 2 0 :=
    ⟨fun s t _ _ => by simp only [ray_line, dot_line]; linarith, fun _ _ => mul_self_nonneg _⟩
  have hconstants : 0 < coarse.c₁ ∧ coarse.c₁ < coarse.c₂ ∧ coarse.c₂ < 1 := by norm_num [coarse]
  obtain ⟨found, session', hrun, hpos, hdec, hflat⟩ :=
    StrongWolfe.search_accepts hcomputes (fun _ _ => rfl) hvalue hgradient hdim hslope hsmooth
      one_pos hconstants.1 hconstants.2.1 hconstants.2.2 coarse_affords_square squareStart none
      { state := 0 }
  refine ⟨found, session', hrun, hpos, ?_, ?_⟩
  · simp only [coarse, squareStart, ray_line, dot_line] at hdec
    linarith
  · simp only [coarse, squareStart, ray_line, dot_line] at hflat
    rw [mul_neg_one, abs_neg, neg_one_mul, ← sub_eq_add_neg] at hflat
    linarith

end Descent

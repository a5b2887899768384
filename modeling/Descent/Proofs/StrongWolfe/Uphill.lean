import Descent.Proofs.StrongWolfe.Effects
import Descent.Proofs.StrongWolfe.Parabolas

/-!
# Line searches uphill

* `StrongWolfe.Uphill`: a trial that rises too steeply to be accepted.
* `Phase.Reaches.rejects_uphill`: for any scalars, a search that makes such trials only closes a
  bracket with the first and bisects it in vain, whether or not they decrease the value enough.
* `Slice.uphill`: in exact arithmetic, if the start rises then so does every trial that is at least
  as steep.
* `StrongWolfe.search_rejects_uphill`: the statement for searches along a slice with a
  non-decreasing slope, as a convex one has.
-/

namespace Descent

section Trials

variable {S : Type} [Scalar S] {rule : StrongWolfe S} {start : Slice S} {first : S} {t : Trial S}
  {ts : List (Trial S)} {phase phase' : Phase S}

/-- The slope of the trial is rising and not flat enough. The trial may decrease the value enough.
-/
structure StrongWolfe.Uphill (rule : StrongWolfe S) (start : Slice S) (t : Trial S) : Prop where
  rising : 0 ≤ t.slope
  steep : ¬rule.FlatEnough start t

namespace Phase

/-- The first trial uphill closes a bracket, at its low end or at its high end. -/
theorem Move.closes (h : Move rule start t (initial start first) phase)
    (ht : rule.Uphill start t) : ∃ b, phase = zooming 0 b := by
  cases h with
  | overshoot => exact ⟨_, rfl⟩
  | acceptDoubled _ _ flat => exact absurd flat ht.steep
  | turn => exact ⟨_, rfl⟩
  | double _ downhill _ => exact absurd ht.rising downhill.falling

/-- An accepted step is not uphill. -/
theorem Reaches.not_accepted (h : Reaches rule start (initial start first) ts phase)
    (huphill : ∀ t ∈ ts, rule.Uphill start t) : ∀ a, phase ≠ accepted a := by
  rintro a rfl
  obtain ⟨past, t, rfl, -, -, flat⟩ := h.recounts
  exact (huphill t (by simp)).steep flat

/-- With trials uphill a search ends in the step zero. It makes one trial to close a bracket and
then all its bisections. -/
theorem Reaches.rejects_uphill (h : Reaches rule start (initial start first) ts phase)
    (hstop : phase.pending rule = none) (hbudget : 1 ≤ rule.doublings)
    (huphill : ∀ t ∈ ts, rule.Uphill start t) :
    ts.length = 1 + rule.bisections ∧ phase.step = 0 := by
  have hnone := h.not_accepted huphill
  cases h with
  | refl =>
    have hdone := pending_bracketing_eq_none.mp hstop
    omega
  | @step _ _ t rest pending hrest =>
    obtain ⟨b, hb⟩ := (move_advance pending).closes (huphill t List.mem_cons_self)
    rw [hb] at hrest
    obtain ⟨hlength, b', rfl⟩ := hrest.bisects_all hstop hnone
    refine ⟨?_, rfl⟩
    rw [List.length_cons, hlength, Nat.add_comm]

end Phase

end Trials

/-- In exact arithmetic a slope that is not below a positive one at the start is rising, and since
that one is positive no rising slope is flat enough. -/
theorem Slice.uphill {rule : StrongWolfe ℝ} {start : Slice ℝ} {t : Trial ℝ} (hc₂ : 0 ≤ rule.c₂)
    (hstart : 0 < start.slope) (hle : start.slope ≤ t.slope) : rule.Uphill start t where
  rising := (hstart.trans_le hle).le
  steep := by
    have hpos : 0 < t.slope := hstart.trans_le hle
    have hbound : 0 ≤ rule.c₂ * start.slope := mul_nonneg hc₂ hstart.le
    rw [flatEnough_iff, abs_of_pos hpos, not_le]
    linarith

/-! ## Whole searches -/

open Space (dot ray)

section Search

variable {σ V : Type} [Space V ℝ] [Coordinatized V ℝ] [ExactSpace V] {f : Objective σ V ℝ}
  {value : V → ℝ} {gradient : V → V} {direction : V} {current : Point V ℝ}

/-- A direction of ascent is rejected if the slope along it does not decrease. The search returns
the step zero after one call of the objective and one for each of its bisections, with any `c₁`, and
with any first step and budgets if these let it make a trial. -/
theorem StrongWolfe.search_rejects_uphill {rule : StrongWolfe ℝ} {first : ℝ}
    (hf : f.Computes value gradient)
    (hkeep : ∀ y, Space.dimension y = Space.dimension current.x →
      Space.dimension (gradient y) = Space.dimension y)
    (hvalue : current.value = value current.x) (hgradient : current.gradient = gradient current.x)
    (hdim : Space.dimension current.x = Space.dimension direction)
    (hmono : MonotoneOn (fun t => dot (gradient (ray current.x direction t)) direction) (Set.Ici 0))
    (hslope : 0 < dot current.gradient direction) (hfirst : 0 < first) (hc₂ : 0 ≤ rule.c₂)
    (hbudget : 1 ≤ rule.doublings) (next : Point V ℝ) (samples : Recorder V)
    (session : Session σ V ℝ) :
    ∃ found session' es,
      rule.search f direction current next first samples session = .ok found session' ∧
      found.step = 0 ∧ session.Extends f es session' ∧ es.length = 1 + rule.bisections := by
  obtain ⟨found, session', qs, hrun, hcalls, hreaches, hstop, hon⟩ :=
    search_on_slice hf hkeep hvalue hgradient hdim rule first next samples session
  obtain ⟨hstart, htrials⟩ := List.forall_mem_cons.mp hon
  have huphill : ∀ t ∈ qs.map (·.trial), rule.Uphill (current.slice direction) t := by
    intro t ht
    have hstep := hreaches.steps_pos hfirst t ht
    have hle := hmono Set.self_mem_Ici hstep.le hstep.le
    refine Slice.uphill hc₂ hslope ?_
    rw [(htrials t ht).slope_eq]
    exact hstart.slope_eq.trans_le hle
  obtain ⟨hlength, hzero⟩ := hreaches.rejects_uphill hstop hbudget huphill
  refine ⟨found, session', _, hrun, hzero, hcalls, ?_⟩
  rw [List.length_map] at hlength ⊢
  exact hlength

end Search

/-- From the height `1` in the square a search to the right makes one trial and all its bisections,
and takes no step. -/
theorem search_rejects_uphill_in_square :
    ∃ found session',
      coarse.search square 1 (squareField.point 1) (squareField.point 1) 1 none { state := 0 } =
        .ok found session' ∧
      found.step = 0 ∧ session'.evaluations.size = 5 := by
  have hdim : Space.dimension (squareField.point 1).x = Space.dimension (1 : ℝ) := rfl
  have hmono : MonotoneOn (fun t => dot (squareField.gradient (ray (1 : ℝ) 1 t)) 1)
      (Set.Ici 0) := by
    intro s _ t _ hst
    simp only [squareField, ray_line, dot_line]
    linarith
  have hslope : 0 < dot (squareField.point 1).gradient 1 := by
    simp [ScalarField.point, squareField, dot_line]
  have hc₂ : 0 ≤ coarse.c₂ := by norm_num [coarse]
  have hbudget : 1 ≤ coarse.doublings := by decide
  obtain ⟨found, session', es, hrun, hstep, hcalls, hlength⟩ :=
    StrongWolfe.search_rejects_uphill square_computes (fun _ _ => rfl) rfl rfl hdim hmono hslope
      one_pos hc₂ hbudget (squareField.point 1) none { state := 0 }
  refine ⟨found, session', hrun, hstep, ?_⟩
  rw [← Array.length_toList, hcalls.evaluations_eq]
  exact hlength

end Descent

import Descent.Proofs.Minimizer.Directions
import Mathlib.Analysis.Calculus.Deriv.Add
import Mathlib.Analysis.Calculus.Deriv.Mul

/-!
# When conjugate gradients go up

In exact arithmetic, for an objective of which nothing is known. A step that decreases the value
enough may still lead up if the search goes uphill, since then the line of sufficient decrease
rises.

* `SearchCall.Made.not_accepted`: an uphill search never accepts a step. So it fails, or it uses up
  its doublings without a bracket and takes the last of its steps.
* `PolakRibiere.run_rises_only_uphill`: searches of that last kind are the only ones that lead up,
  and how far up they lead. A run without them never rises.
* `PolakRibiere.run_rises_on_ridge`: a run with such a search returns a point above another one that
  it has recorded.
-/

namespace Descent

open Space (dimension dot)

variable {σ V : Type} [Space V ℝ] {rule : StrongWolfe ℝ} {f : Objective σ V ℝ}

namespace SearchCall

variable {c : SearchCall σ V ℝ}

theorem Made.not_accepted (h : c.Made rule f) (hc₂ : 0 < rule.c₂) (hup : 0 < c.slope) :
    ¬c.Accepted := by
  intro ha
  have hflat := (abs_nonneg _).trans (h.exit_flat ha)
  nlinarith

/-- The search goes uphill, and takes the last of its doubled steps. -/
structure Overruns (c : SearchCall σ V ℝ) : Prop where
  uphill : 0 < c.slope
  succeeded : c.Succeeded
  exhausted : ¬c.Accepted

/-- No other search leads up. -/
theorem Made.overruns (h : c.Made rule f) (hfirst : 0 < c.first) (hc₁ : 0 ≤ rule.c₁)
    (hc₂ : 0 < rule.c₂) (hrise : c.current.value < c.arrival.value) : c.Overruns := by
  have hgain := mul_nonneg hc₁ (h.step_nonneg hfirst)
  have hup : 0 < c.slope := by
    by_contra hdown
    have hle : rule.c₁ * c.found.step * c.slope ≤ 0 :=
      mul_nonpos_of_nonneg_of_nonpos hgain (not_lt.mp hdown)
    have harrival : c.arrival.value ≤ c.current.value + rule.c₁ * c.found.step * c.slope :=
      h.arrival_le
    linarith
  have hsucceeded : c.Succeeded := by
    by_contra hfailed
    rw [arrival_of_failed (eq_true_of_ne_false hfailed)] at hrise
    exact lt_irrefl _ hrise
  exact ⟨hup, hsucceeded, h.not_accepted hc₂ hup⟩

end SearchCall

namespace PolakRibiere

variable {m : PolakRibiere ℝ} {s s' : State V ℝ} {session session' : Session σ V ℝ} {n : ℕ}
  {cs : List (SearchCall σ V ℝ)}

/-- Every search begins with a positive step: the one before has found it, or it is the first step
of the run. -/
theorem Iterates.first_pos (h : Iterates m f n s session cs s' session') (hm : 0 < m.firstStep)
    (hs : 0 < s.nextStep) : ∀ c ∈ cs, 0 < c.first := by
  induction h with
  | exhausted => simp
  | converged => simp
  | restarted _ _ _ _ ih => exact List.forall_mem_cons.mpr ⟨hs, ih hm⟩
  | moved _ made nonzero _ _ ih =>
    have hnonneg := made.step_nonneg hs
    have hpos := hnonneg.lt_of_ne' (beq_eq_false_iff_ne.mp nonzero)
    exact List.forall_mem_cons.mpr ⟨hs, ih hpos⟩

/-- A run that begins with a positive step returns. The points that it records are its start and the
points to which its searches lead. A search leads at most `c₁ α` times its slope up. If it leads up
at all, then it goes uphill and has used up its doublings. A run without such searches records
values that never rise, the last of which is that of its result. -/
theorem run_rises_only_uphill [SizedSpace V ℝ] {good : V → Prop} {x₀ : V}
    (hf : f.Answers (dimension x₀) good) (hg : good x₀) (hfirst : 0 < m.firstStep)
    (hc₁ : 0 ≤ m.lineSearch.c₁) (hc₂ : 0 < m.lineSearch.c₂) (history : History V ℝ)
    (session : Session σ V ℝ) :
    ∃ p session₁ cs s session₂ session',
      evaluateFirst f x₀ session = .ok p session₁ ∧
      Iterates m f (m.stopping.budget 20 x₀) (.initial m p history) session₁ cs s session₂ ∧
      m.run f x₀ history session =
        .ok ({ point := s.current, iterations := cs.length,
               converged := m.stopping.Converged s.current },
             history.recordAll (cs.map record ++ [s.final])) session' ∧
      (cs.map record ++ [s.final]).map (·.point) = p :: cs.map (·.arrival) ∧
      (∀ c ∈ cs, c.arrival.value ≤
        c.current.value + m.lineSearch.c₁ * c.found.step * c.slope) ∧
      (∀ c ∈ cs, c.current.value < c.arrival.value → c.Overruns) ∧
      ((∀ c ∈ cs, ¬c.Overruns) →
        ((cs.map record ++ [s.final]).map (·.point.value)).Pairwise (· ≥ ·)) := by
  obtain ⟨p, session₁, cs, s, session₂, session', hstart, hcs, hrun⟩ :=
    m.run_iterates hf rfl hg history session
  have hjourney : Journey m.lineSearch f p session₁ cs s.current session₂ := hcs.journey
  have hoverruns : ∀ c ∈ cs, c.current.value < c.arrival.value → c.Overruns := fun c hc =>
    (hjourney.made c hc).overruns (hcs.first_pos hfirst hfirst c hc) hc₁ hc₂
  have hpoints :
      (cs.map record ++ [s.final]).map (·.point) = cs.map (·.current) ++ [s.current] := by
    rw [List.map_append, List.map_map]
    rfl
  refine ⟨p, session₁, cs, s, session₂, session', hstart, hcs, hrun, ?_, ?_, hoverruns, ?_⟩
  · exact hpoints.trans hjourney.path_eq
  · exact fun c hc => (hjourney.made c hc).arrival_le
  · intro hnone
    have hdown : ∀ c ∈ cs, c.arrival.value ≤ c.current.value := fun c hc =>
      not_lt.mp fun hrise => hnone c hc (hoverruns c hc hrise)
    have hvalues := hjourney.values_pairwise hdown
    rw [← hpoints, List.map_map] at hvalues
    exact hvalues

/-! ## Over the ridge -/

/-- The function `-x - 2 x² + 4.5 x³ - 2 x⁴`. It falls from `0` to a minimum near `0.68`, rises to a
ridge near `1.16`, and falls from there on. -/
noncomputable def ridgeField : ScalarField ℝ ℝ where
  value x := -x - 2.0 * x * x + 4.5 * x * x * x - 2.0 * x * x * x * x
  gradient x := -1 - 4.0 * x + 13.5 * x * x - 8.0 * x * x * x

theorem ridgeField_hasDerivAt (x : ℝ) : HasDerivAt ridgeField.value (ridgeField.gradient x) x := by
  have hx := hasDerivAt_id' x
  have hsquare := (hx.const_mul 2.0).mul hx
  have hcube := ((hx.const_mul 4.5).mul hx).mul hx
  refine (((hx.neg.sub hsquare).add hcube).sub (hsquare.mul hx |>.mul hx)).congr_deriv ?_
  show _ = -1 - 4.0 * x + 13.5 * x * x - 8.0 * x * x * x
  norm_num
  ring

/-- The objective with these values and gradients. -/
noncomputable def ridge : Objective Unit ℝ ℝ := fun x _ =>
  return (ridgeField.value x, ridgeField.gradient x)

theorem ridge_computes : ridge.Computes ridgeField.value ridgeField.gradient :=
  fun _ _ _ => rfl

/-- Two iterations at most, whose searches take a downhill step without doubling it. -/
noncomputable def undoubled : PolakRibiere ℝ where
  lineSearch := { c₁ := 0.375, c₂ := 0.75, doublings := 1, bisections := 4 }
  firstStep := 1
  stopping := { tolerance := 0.0009765625, limit := some 2 }

/-- The first search accepts a step to the rising side of the ridge. -/
theorem first_search_on_ridge :
    ((undoubled.stages ridgeField 0 0).search undoubled ridgeField).2 = .accepted 1 := by
  refine congrArg Prod.snd (StrongWolfe.explore_of_accepts Nat.one_pos ?_ ?_)
  · rw [sufficientDecrease_iff]
    norm_num [undoubled, ridgeField, stages, Stage.fresh, ScalarField.point, ScalarField.trial,
      Point.slice]
  · rw [flatEnough_iff]
    norm_num [undoubled, ridgeField, stages, Stage.fresh, ScalarField.point, ScalarField.trial,
      Point.slice]

/-- The next direction keeps so much of the old one that it leads on over the ridge. -/
theorem stage_on_ridge :
    undoubled.stages ridgeField 0 1 = { x := 1, direction := 0.25, first := 1 } := by
  have hstage := Stage.next_of_step (congrArg Phase.step first_search_on_ridge)
    (beq_eq_false_iff_ne.mpr one_ne_zero)
  refine hstage.trans ?_
  norm_num [undoubled, ridgeField, stages, Stage.fresh, Stage.move, Phase.step, beta,
    positivePart_eq_max]

/-- The second search takes its only trial, which lies higher, but below the rising line of
sufficient decrease, and leads on downhill. -/
theorem second_search_on_ridge :
    (undoubled.stages ridgeField 0 1).step undoubled ridgeField = 1 := by
  have hdown : undoubled.lineSearch.Downhill ((ridgeField.point 1).slice 0.25)
      (ridgeField.trial 1 0.25 1) := by
    constructor
    · rw [sufficientDecrease_iff]
      norm_num [undoubled, ridgeField, ScalarField.point, ScalarField.trial, Point.slice]
    · rw [flatEnough_iff]
      norm_num [undoubled, ridgeField, ScalarField.point, ScalarField.trial, Point.slice]
    · norm_num [ridgeField, ScalarField.trial]
  rw [stage_on_ridge]
  exact congrArg (Phase.step ·.2) (StrongWolfe.explore_of_downhill rfl hdown)

theorem end_on_ridge :
    (undoubled.stages ridgeField 0 2).x = 1.25 := by
  have hstage := Stage.next_of_step second_search_on_ridge
    (beq_eq_false_iff_ne.mpr one_ne_zero)
  refine (congrArg Stage.x hstage).trans ?_
  rw [stage_on_ridge]
  norm_num [Stage.move]

/-- A run makes these two searches and ends behind them. -/
theorem run_on_ridge {history : History ℝ ℝ} {s : State ℝ ℝ} {session session' : Session Unit ℝ ℝ}
    {cs : List (SearchCall Unit ℝ ℝ)}
    (h : Iterates undoubled ridge 2 (.initial undoubled (ridgeField.point 0) history) session cs s
      session') :
    ∃ b c, cs = [b, c] ∧ c.current = ridgeField.point 1 ∧ c.arrival = ridgeField.point 1.25 ∧
      s.current = ridgeField.point 1.25 := by
  have hlarge : ∀ k < 2, ¬undoubled.stopping.Converged (undoubled.pointAt ridgeField 0 k) := by
    intro k hk
    rw [Stopping.Converged, not_le]
    interval_cases k
    · norm_num [pointAt, stages, Stage.fresh, ScalarField.point, ridgeField, undoubled]
    · rw [pointAt, stage_on_ridge]
      norm_num [ScalarField.point, ridgeField, undoubled, abs_of_pos]
  have hfollow := h.follow ridge_computes State.initial_isAt
  have hlength := hfollow.stopsAt.eq_budget hlarge
  obtain ⟨b, c, rfl⟩ := List.length_eq_two.mp hlength
  have hc := h.call_isAt ridge_computes State.initial_isAt (k := 0) (i := 1) rfl
  have hlast : s.current = ridgeField.point 1.25 := by
    rw [hfollow.isAt.current_eq]
    exact congrArg ridgeField.point end_on_ridge
  have hpath : [c.current, s.current] = [b.arrival, c.arrival] :=
    congrArg List.tail h.journey.path_eq
  refine ⟨b, c, rfl, ?_, ?_, hlast⟩
  · rw [hc.current_eq, pointAt, stage_on_ridge]
  · rw [← hlast]
    exact (List.cons.inj (List.cons.inj hpath).2).1.symm

theorem ridge_answers : ridge.Answers (dimension (0 : ℝ)) fun _ => True :=
  ridge_computes.answers fun _ _ => rfl

theorem ridge_rises : (ridgeField.point 1).value < (ridgeField.point 1.25).value := by
  norm_num [ridgeField, ScalarField.point]

/-- The second search over the ridge leads up, goes uphill and has used up its doubling. -/
theorem run_rises_only_uphill_on_ridge :
    ∃ p session₁ b c s session₂ session',
      evaluateFirst ridge 0 { state := () } = .ok p session₁ ∧
      Iterates undoubled ridge 2 (.initial undoubled p none) session₁ [b, c] s session₂ ∧
      undoubled.run ridge 0 none { state := () } =
        .ok ({ point := s.current, iterations := 2,
               converged := undoubled.stopping.Converged s.current }, none) session' ∧
      c.current.value < c.arrival.value ∧ c.Overruns := by
  have hc₁ : 0 ≤ undoubled.lineSearch.c₁ := by norm_num [undoubled]
  have hc₂ : 0 < undoubled.lineSearch.c₂ := by norm_num [undoubled]
  obtain ⟨p, session₁, cs, s, session₂, session', hstart, hcs, hrun, -, -, hrises, -⟩ :=
    run_rises_only_uphill ridge_answers trivial one_pos hc₁ hc₂ none { state := () }
  obtain rfl : p = ridgeField.point 0 := evaluateFirst_point ridge_computes hstart
  obtain ⟨b, c, rfl, hcurrent, harrival, -⟩ := run_on_ridge hcs
  have hup : c.current.value < c.arrival.value := by
    rw [hcurrent, harrival]
    exact ridge_rises
  exact ⟨_, session₁, b, c, s, session₂, session', hstart, hcs, hrun, hup, hrises c (by simp) hup⟩

/-- The function is differentiable and the constants are sound, and still the run returns a point
that lies above another one that it has recorded. -/
theorem run_rises_on_ridge :
    (∀ x, HasDerivAt ridgeField.value (ridgeField.gradient x) x) ∧
    ridge.Computes ridgeField.value ridgeField.gradient ∧
    0 < undoubled.firstStep ∧ 0 ≤ undoubled.stopping.tolerance ∧ 0 < undoubled.lineSearch.c₁ ∧
    undoubled.lineSearch.c₁ < undoubled.lineSearch.c₂ ∧ undoubled.lineSearch.c₂ < 1 ∧
    ∃ minimum records session',
      undoubled.run ridge 0 (some #[]) { state := () } = .ok (minimum, some records) session' ∧
      ∃ r ∈ records, r.point.value < minimum.point.value := by
  refine ⟨ridgeField_hasDerivAt, ridge_computes, by norm_num [undoubled], by norm_num [undoubled],
    by norm_num [undoubled], by norm_num [undoubled], by norm_num [undoubled], ?_⟩
  obtain ⟨p, session₁, cs, s, session₂, session', hstart, hcs, hrun⟩ :=
    undoubled.run_iterates ridge_answers rfl trivial (some #[]) { state := () }
  obtain rfl : p = ridgeField.point 0 := evaluateFirst_point ridge_computes hstart
  obtain ⟨b, c, rfl, hcurrent, -, hlast⟩ := run_on_ridge hcs
  refine ⟨_, _, session', hrun, record c, by simp, ?_⟩
  show c.current.value < s.current.value
  rw [hcurrent, hlast]
  exact ridge_rises

end PolakRibiere

end Descent

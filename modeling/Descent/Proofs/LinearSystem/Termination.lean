import Descent.Proofs.LinearSystem.Residual

/-!
# Termination of the conjugate gradient method

In exact arithmetic, for positive definite matrices.

* `curvature_head_pos`: as long as the residual is not small enough, the direction has positive
  curvature, so no iteration gets stuck or warns.
* `lt_of_unsolved`: fewer residuals are not small enough than there are unknowns.
* `solve_terminates`: a limit of at least one iteration for every unknown is enough.
-/

open scoped RealInnerProductSpace

namespace Descent.ConjugateGradient

variable {m : ConjugateGradient ℝ} {n k : ℕ} {a : DenseMatrix ℝ} {b x : List ℝ} {s : State ℝ}

section Heads

variable (ha : a.Square n) (hpos : (a.toMatrix n).PosDef) (hb : b.length = n)
  (htol : 0 ≤ m.tolerance) (hs : s.Tracks a b n) (hfirst : s.direction = s.residual)
include ha hpos hb htol hs hfirst

theorem curvature_head_pos (h : ∀ j ≤ k, ¬m.Converged (s.head a j)) :
    0 < (s.head a k).curvature a := by
  rw [(hs.head ha hb k).fits.curvature_eq_inner ha]
  exact (conjugateSteps ha hb hs hfirst).curvature_pos
    (fun v hv => DenseMatrix.inner_toLin_pos hpos hv)
    fun j hj => residual_ne_zero htol (hs.head ha hb j) (h j hj)

/-- The residuals that are not small enough are orthogonal to each other, so there are not more of
them than unknowns. -/
theorem lt_of_unsolved (h : ∀ j ≤ k, ¬m.Converged (s.head a j)) : k < n := by
  have hsteps := conjugateSteps ha hb hs hfirst
  have hne : ∀ j ≤ k, toEuclidean n (s.head a j).residual ≠ 0 := fun j hj =>
    residual_ne_zero htol (hs.head ha hb j) (h j hj)
  have hregular := hsteps.regular_of_unsolved (fun v hv => DenseMatrix.inner_toLin_pos hpos hv)
    fun j (hj : j < k) => hne j hj.le
  have hlt := hsteps.lt_finrank (DenseMatrix.isSymmetric_toLin hpos.isHermitian) hregular
    (hne k le_rfl)
  rwa [finrank_euclideanSpace_fin] at hlt

end Heads

/-- A direction of positive curvature gives no warning. -/
theorem level_ne_warn_of_curvature_pos (h : 0 < s.curvature a) :
    ∀ e ∈ s.events a, e.level ≠ .warn := by
  have hfree : ¬s.Stuck a := fun hstuck => hstuck.1.not_gt h
  unfold State.events
  rw [if_neg h.not_ge, if_neg hfree]
  simp [SolverEvent.level]

/-- How a run ends for a positive definite matrix with a limit that is large enough: with a small
residual, after at most as many iterations as there are unknowns, and without a warning. -/
theorem Outcome.converged (ha : a.Square n) (hpos : (a.toMatrix n).PosDef) (hb : b.length = n)
    (htol : 0 ≤ m.tolerance) (hs : s.Tracks a b n) (hfirst : s.direction = s.residual)
    (hzero : s.iterations = 0) {budget steps : ℕ} {s' : State ℝ} (hbudget : n ≤ budget)
    (h : Outcome m a s budget steps s') :
    m.Converged s' ∧ s'.iterations ≤ n ∧ ∀ e ∈ s.reports a steps, e.level ≠ .warn := by
  cases h with
  | atOnce converged => exact ⟨converged, by omega, by simp [State.reports]⟩
  | iterated unsolved exit =>
    cases exit with
    | exhausted moves =>
      have hlt := lt_of_unsolved ha hpos hb htol hs hfirst (unsolved_of_moves unsolved moves)
      omega
    | @stuck k before moves stuck =>
      have hcurved :=
        curvature_head_pos ha hpos hb htol hs hfirst (unsolved_of_moves unsolved moves)
      exact absurd stuck.1 hcurved.not_ge
    | @solved k before moves free converged =>
      have hunsolved := unsolved_of_moves unsolved moves
      have hlt := lt_of_unsolved ha hpos hb htol hs hfirst hunsolved
      refine ⟨converged, ?_, ?_⟩
      · show (s.head a k).iterations + 1 ≤ n
        rw [State.iterations_head, hzero]
        omega
      · intro e he
        obtain ⟨j, hj, he⟩ := List.mem_flatMap.mp he
        have hj : j ≤ k := Nat.le_of_lt_succ (List.mem_range.mp hj)
        have hcurved := curvature_head_pos ha hpos hb htol hs hfirst
          fun i (hi : i ≤ j) => hunsolved i (hi.trans hj)
        exact level_ne_warn_of_curvature_pos hcurved e he

/-- A system with a positive definite matrix is solved to every tolerance, also to zero, in at most
as many iterations as it has unknowns, whatever the first guess is. No direction gives a warning. -/
theorem solve_terminates (ha : a.Square n) (hpos : (a.toMatrix n).PosDef) (hb : b.length = n)
    (hx : x.length = n) (htol : 0 ≤ m.tolerance) (hlimit : ∀ k ∈ m.limit, n ≤ k)
    (log : Array (SolverEvent ℝ)) :
    ∃ (solution : Solution ℝ) (reports : List (SolverEvent ℝ)),
      m.solve a b x log = .ok solution (log ++ reports.toArray) ∧
      solution.converged = true ∧ solution.iterations ≤ n ∧ (∀ e ∈ reports, e.level ≠ .warn) ∧
      solution.x.length = n ∧
      Space.norm (Space.ray b (a.apply solution.x) (-1)) ≤ m.tolerance ∧
      (m.tolerance = 0 → a.apply solution.x = b) := by
  have hs := State.tracks_initial ha hb hx none
  have hbudget : n ≤ m.limit.getD n := by
    cases hm : m.limit with
    | none => exact le_rfl
    | some k => exact hlimit k hm
  obtain ⟨steps, s', hend, hrun⟩ := solve_run (m := m) ha hb hx log
  obtain ⟨hconv, hiterations, hreports⟩ :=
    hend.converged ha hpos hb htol hs rfl rfl hbudget
  have hs' := hend.tracks ha hb hs
  have hnorm : Space.norm (Space.ray b (a.apply s'.x) (-1)) ≤ m.tolerance := by
    rw [← hs'.residualNorm_eq]
    exact hconv
  refine ⟨s'.solution m, (State.initial a b x none).reports a steps ++
    [.finished (m.Converged s') s'.iterations s'.residualNorm], ?_, decide_eq_true hconv,
    hiterations, ?_, hs'.fits.x, hnorm, ?_⟩
  · rw [hrun, ← List.append_toArray, ← Array.append_assoc, Array.push_eq_append]
  · intro e he
    rcases List.mem_append.mp he with he | he
    · exact hreports e he
    · rw [List.mem_singleton.mp he]
      simp [SolverEvent.level]
  · intro h0
    exact apply_eq_of_norm_le_zero ha hb hs'.fits.x (h0 ▸ hnorm)

/-- A positive definite matrix. -/
def ellipse : DenseMatrix ℝ where
  columnCount := 2
  rows := [[1 + 1, 1], [1, 1 + 1]]
  length_of_mem := by simp

theorem ellipse_posDef : (ellipse.toMatrix 2).PosDef := by
  refine .of_dotProduct_mulVec_pos ?_ fun v hv => ?_
  · ext i j
    fin_cases i <;> fin_cases j <;> rfl
  · have hne : v 0 ≠ 0 ∨ v 1 ≠ 0 := by
      rw [← not_and_or]
      rintro ⟨h0, h1⟩
      exact hv (funext fun i => by fin_cases i <;> assumption)
    have hform : star v ⬝ᵥ (ellipse.toMatrix 2).mulVec v = (v 0 + v 1) ^ 2 + v 0 ^ 2 + v 1 ^ 2 := by
      simp [dotProduct, Matrix.mulVec, Fin.sum_univ_two, DenseMatrix.toMatrix, ellipse]
      ring
    rw [hform]
    rcases hne with h | h <;> positivity

/-- The exact solution of a system with two unknowns is found in two iterations. -/
theorem solve_terminates_on_ellipse :
    ∃ (solution : Solution ℝ) (reports : List (SolverEvent ℝ)),
      (ConjugateGradient.mk 0 none).solve ellipse [1, 0] [0, 1] #[] = .ok solution reports.toArray ∧
      solution.converged = true ∧ solution.iterations ≤ 2 ∧ ellipse.apply solution.x = [1, 0] := by
  obtain ⟨solution, reports, hrun, hconv, hiterations, -, -, -, hexact⟩ :=
    solve_terminates (m := ⟨0, none⟩) (n := 2) (a := ellipse) (b := [1, 0]) (x := [0, 1])
      ⟨rfl, rfl⟩ ellipse_posDef rfl rfl le_rfl (by simp) #[]
  rw [Array.empty_append] at hrun
  exact ⟨solution, reports, hrun, hconv, hiterations, hexact rfl⟩

end Descent.ConjugateGradient

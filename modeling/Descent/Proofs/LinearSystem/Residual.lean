import Descent.Proofs.Euclidean
import Descent.Proofs.LinearSystem.Conjugacy
import Descent.Proofs.LinearSystem.Iterations

/-!
# The residual of the conjugate gradient method

In exact arithmetic, for every square system.

* `State.Tracks`: the residual that a state keeps is `b - A x`, with its square. Every iteration
  preserves that, so it holds at every head and in the end (`Outcome.tracks`).
* `conjugateSteps`: the residuals and directions at the heads follow the recurrence of
  `ConjugateSteps`.
* `residual_of_iterate`: what a run reports is the residual of the iterate that it returns.
-/

open scoped RealInnerProductSpace

namespace Descent.ConjugateGradient

variable {n : ℕ} {a : DenseMatrix ℝ} {b x : List ℝ} {s : State ℝ}

/-- The residual of a state is that of its iterate. -/
structure State.Tracks (a : DenseMatrix ℝ) (b : List ℝ) (n : ℕ) (s : State ℝ) : Prop where
  fits : s.Fits n
  residual_eq : s.residual = Space.ray b (a.apply s.x) (-1)
  squared_eq : s.residualSquared = Space.normSquared s.residual

/-- The residual of an iterate as a difference of vectors. -/
theorem toEuclidean_residual (ha : a.Square n) (hb : b.length = n) (hx : x.length = n) :
    toEuclidean n (Space.ray b (a.apply x) (-1)) =
      toEuclidean n b - a.toLin n (toEuclidean n x) := by
  rw [toEuclidean_ray hb (ha.length_apply x), DenseMatrix.toEuclidean_apply ha hx, neg_one_smul,
    sub_eq_add_neg]

/-- A system whose residual has length zero is solved. -/
theorem apply_eq_of_norm_le_zero (ha : a.Square n) (hb : b.length = n) (hx : x.length = n)
    (h : Space.norm (Space.ray b (a.apply x) (-1)) ≤ 0) : a.apply x = b := by
  rw [norm_eq_norm (length_ray hb (ha.length_apply x) _), toEuclidean_residual ha hb hx,
    norm_le_zero_iff, sub_eq_zero, ← DenseMatrix.toEuclidean_apply ha hx] at h
  exact (toEuclidean_injective hb (ha.length_apply x) h).symm

namespace State

theorem tracks_initial (ha : a.Square n) (hb : b.length = n) (hx : x.length = n)
    (history : Recorder (SolverRecord ℝ)) : (initial a b x history).Tracks a b n :=
  ⟨initial_fits ha hb hx history, rfl, rfl⟩

theorem Tracks.advanced (ha : a.Square n) (hb : b.length = n) (h : s.Tracks a b n) :
    (s.advanced a).Tracks a b n where
  fits := h.fits.advanced ha
  residual_eq := by
    have hfits := h.fits.advanced ha
    apply toEuclidean_injective hfits.residual (length_ray hb (ha.length_apply _) _)
    rw [toEuclidean_residual ha hb hfits.x]
    unfold State.advanced
    rw [toEuclidean_ray h.fits.residual (ha.length_apply _), h.residual_eq,
      toEuclidean_residual ha hb h.fits.x, toEuclidean_ray h.fits.x h.fits.direction,
      DenseMatrix.toEuclidean_apply ha h.fits.direction, map_add, map_smul, neg_smul]
    abel
  squared_eq := rfl

theorem Tracks.next (ha : a.Square n) (hb : b.length = n) (h : s.Tracks a b n) :
    (s.next a).Tracks a b n where
  fits := h.fits.next ha
  residual_eq := (h.advanced ha hb).residual_eq
  squared_eq := rfl

theorem Tracks.head (ha : a.Square n) (hb : b.length = n) (h : s.Tracks a b n) (k : ℕ) :
    (s.head a k).Tracks a b n := by
  induction k with
  | zero => exact h
  | succ k ih => exact ih.next ha hb

theorem Tracks.squared_eq_inner (h : s.Tracks a b n) :
    s.residualSquared = ⟪toEuclidean n s.residual, toEuclidean n s.residual⟫ := by
  rw [h.squared_eq]
  exact dot_eq_inner h.fits.residual h.fits.residual

/-- The norm that a run reports is that of `b - A x`. -/
theorem Tracks.residualNorm_eq (h : s.Tracks a b n) :
    s.residualNorm = Space.norm (Space.ray b (a.apply s.x) (-1)) := by
  rw [← h.residual_eq, residualNorm, h.squared_eq]
  rfl

theorem Fits.curvature_eq_inner (ha : a.Square n) (h : s.Fits n) :
    s.curvature a = ⟪toEuclidean n s.direction, a.toLin n (toEuclidean n s.direction)⟫ := by
  rw [← DenseMatrix.toEuclidean_apply ha h.direction]
  exact dot_eq_inner h.direction (ha.length_apply _)

theorem Tracks.residual_next (ha : a.Square n) (h : s.Tracks a b n) :
    toEuclidean n (s.next a).residual = toEuclidean n s.residual -
      (⟪toEuclidean n s.residual, toEuclidean n s.residual⟫ /
        ⟪toEuclidean n s.direction, a.toLin n (toEuclidean n s.direction)⟫) •
        a.toLin n (toEuclidean n s.direction) := by
  unfold State.next State.advanced
  rw [toEuclidean_ray h.fits.residual (ha.length_apply _),
    DenseMatrix.toEuclidean_apply ha h.fits.direction, h.squared_eq_inner,
    h.fits.curvature_eq_inner ha, neg_smul, sub_eq_add_neg]

theorem Tracks.direction_next (ha : a.Square n) (hb : b.length = n) (h : s.Tracks a b n) :
    toEuclidean n (s.next a).direction =
      (⟪toEuclidean n (s.next a).residual, toEuclidean n (s.next a).residual⟫ /
        ⟪toEuclidean n s.residual, toEuclidean n s.residual⟫) • toEuclidean n s.direction +
        toEuclidean n (s.next a).residual := by
  have hcombine := toEuclidean_combine h.fits.direction (h.next ha hb).fits.residual
    ((s.next a).residualSquared / s.residualSquared) 1
  rw [one_smul, h.squared_eq_inner, (h.next ha hb).squared_eq_inner] at hcombine
  rw [← hcombine, ← h.squared_eq_inner, ← (h.next ha hb).squared_eq_inner]
  rfl

end State

theorem Outcome.tracks {m : ConjugateGradient ℝ} {budget steps : ℕ} {s' : State ℝ}
    (ha : a.Square n) (hb : b.length = n) (hs : s.Tracks a b n)
    (h : Outcome m a s budget steps s') : s'.Tracks a b n :=
  h.invariant hs (fun _ ht => ht.advanced ha hb) (fun _ ht => ht.next ha hb)

/-- A residual that is not small enough does not vanish. -/
theorem residual_ne_zero {m : ConjugateGradient ℝ} (htol : 0 ≤ m.tolerance) (hs : s.Tracks a b n)
    (h : ¬m.Converged s) : toEuclidean n s.residual ≠ 0 := by
  intro h0
  apply h
  show √s.residualSquared ≤ m.tolerance
  rw [hs.squared_eq_inner, h0, inner_zero_left, Real.sqrt_zero]
  exact htol

theorem AtHead.tracks {m : ConjugateGradient ℝ} {t : State ℝ} (ha : a.Square n)
    (hb : b.length = n) (hs : s.Tracks a b n) (h : AtHead m a s t) : t.Tracks a b n := by
  induction h with
  | first => exact hs
  | next _ moved ih =>
    rw [eq_next_of_step_moved ha ih.fits moved]
    exact ih.next ha hb

/-- At the heads of the iterations the residuals and directions are those of the recurrence. -/
theorem conjugateSteps (ha : a.Square n) (hb : b.length = n) (hs : s.Tracks a b n)
    (hfirst : s.direction = s.residual) :
    ConjugateSteps (a.toLin n) (fun k => toEuclidean n (s.head a k).residual)
      (fun k => toEuclidean n (s.head a k).direction) where
  first := congrArg (toEuclidean n) hfirst
  residual k := (hs.head ha hb k).residual_next ha
  direction k := (hs.head ha hb k).direction_next ha hb

/-! ## Whole runs -/

/-- The residual that a run keeps is that of its iterate, for every square matrix: with its square
at every head of the loop, and so with its norm in the end, however the loop was left. -/
theorem residual_of_iterate (m : ConjugateGradient ℝ) (ha : a.Square n) (hb : b.length = n)
    (hx : x.length = n) (history : Recorder (SolverRecord ℝ)) (log : Array (SolverEvent ℝ)) :
    ∃ s, start a b x history log = .ok s log ∧
      (∀ t, AtHead m a s t → t.residual = Space.ray b (a.apply t.x) (-1) ∧
        t.residualSquared = Space.dot t.residual t.residual) ∧
      ∃ solution history' log', m.run a b x history log = .ok (solution, history') log' ∧
        solution.residualNorm = Space.norm (Space.ray b (a.apply solution.x) (-1)) ∧
        (solution.converged = true →
          Space.norm (Space.ray b (a.apply solution.x) (-1)) ≤ m.tolerance) := by
  have hs := State.tracks_initial ha hb hx history
  obtain ⟨steps, s', hend, hrun⟩ := run_run (m := m) ha hb hx history log
  have hnorm := (hend.tracks ha hb hs).residualNorm_eq
  refine ⟨_, start_run ha hb hx history log, fun t ht => ?_, _, _, _, hrun, hnorm, ?_⟩
  · have htracks := ht.tracks ha hb hs
    exact ⟨htracks.residual_eq, htracks.squared_eq⟩
  · intro hconverged
    have hsmall : s'.residualNorm ≤ m.tolerance := of_decide_eq_true hconverged
    exact hnorm.ge.trans hsmall

/-- A matrix that is not symmetric. -/
def shear : DenseMatrix ℝ where
  columnCount := 2
  rows := [[1, 1 + 1], [0, -1]]
  length_of_mem := by simp

theorem residual_of_iterate_under_shear :
    ¬(shear.toMatrix 2).IsSymm ∧
    ∃ solution history' log',
      (ConjugateGradient.mk 0 (some 5)).run shear [1, 1] [0, 1] (some #[]) #[] =
        .ok (solution, history') log' ∧
      solution.residualNorm = Space.norm (Space.ray [1, 1] (shear.apply solution.x) (-1)) := by
  constructor
  · intro h
    have hentry : (0 : ℝ) = 1 + 1 := h.apply 0 1
    norm_num at hentry
  · obtain ⟨s, -, -, solution, history', log', hrun, hnorm, -⟩ :=
      residual_of_iterate (n := 2) ⟨0, some 5⟩ (a := shear) (b := [1, 1]) (x := [0, 1]) ⟨rfl, rfl⟩
        rfl rfl (some #[]) #[]
    exact ⟨solution, history', log', hrun, hnorm⟩

end Descent.ConjugateGradient

import Descent.Proofs.LinearSystem.Optimality
import Descent.Proofs.LinearSystem.Records
import Descent.Proofs.LinearSystem.Refusals

/-!
# Mirror images of linear systems

The system `(-A) x = -b` has the solutions of `A x = b`. In exact arithmetic, and for every square
matrix, the solver goes through the same iterates for both: its residuals, directions and steps are
those of the other run, turned around. An iteration looks at the sign of the curvature only in order
to warn.

* `Coordinates.neg`, `DenseMatrix.neg`: the vector `-v` and the matrix `-A`, with what the
  operations make of them.
* `State.Mirrors`: the state of the mirrored run. Every iteration preserves that (`Mirrors.next`),
  and so it holds at every head and where the two runs end (`Mirrors.outcome`).
* `SolverRecord.mirrored`: a record of the mirrored run.
* `run_mirrored`: the statement for whole runs. A negative definite system is solved as its positive
  definite mirror image is, through negative steps.
-/

namespace Descent

/-! ## Vectors and matrices turned around -/

/-- The vector `-v`. -/
def Coordinates.neg {S : Type} [Neg S] (v : List S) : List S :=
  v.map fun x => -x

open Coordinates (neg)

@[simp] theorem length_neg {S : Type} [Neg S] (v : List S) : (neg v).length = v.length :=
  List.length_map _

/-- The matrix `-A`. -/
def DenseMatrix.neg {S : Type} [Neg S] (a : DenseMatrix S) : DenseMatrix S where
  columnCount := a.columnCount
  rows := a.rows.map Coordinates.neg
  length_of_mem := by
    intro row h
    obtain ⟨row, hrow, rfl⟩ := List.mem_map.mp h
    rw [length_neg, a.length_of_mem row hrow]

theorem DenseMatrix.rowCount_neg {S : Type} [Neg S] (a : DenseMatrix S) :
    a.neg.rowCount = a.rowCount :=
  List.length_map _

theorem DenseMatrix.Square.neg {S : Type} [Neg S] {a : DenseMatrix S} {n : ℕ} (h : a.Square n) :
    a.neg.Square n :=
  ⟨a.rowCount_neg.trans h.rowCount_eq, h.columnCount_eq⟩

section Operations

variable (v w : List ℝ) (s t : ℝ)

theorem dot_neg_left : Space.dot (neg v) w = -Space.dot v w := by
  have hneg : List.zipWith (· * ·) (neg v) w = (List.zipWith (· * ·) v w).map fun x => -x := by
    simp only [Coordinates.neg, List.zipWith_map_left, List.map_zipWith, neg_mul]
  show (List.zipWith (· * ·) (neg v) w).foldl (· + ·) 0 =
    -(List.zipWith (· * ·) v w).foldl (· + ·) 0
  rw [hneg, ← List.sum_eq_foldl, ← List.sum_eq_foldl, List.sum_neg]

theorem dot_neg_neg : Space.dot (neg v) (neg w) = Space.dot v w := by
  show (List.zipWith (· * ·) (neg v) (neg w)).foldl (· + ·) 0 = _
  simp only [Coordinates.neg, List.zipWith_map, neg_mul_neg]
  rfl

/-- A step back along the direction turned around. -/
theorem ray_neg_neg : Space.ray v (neg w) (-t) = Space.ray v w t := by
  simp only [Space.ray, Coordinates.ray, Coordinates.neg, List.zipWith_map_right, neg_mul_neg]

theorem neg_ray : neg (Space.ray v w t) = Space.ray (neg v) w (-t) := by
  simp only [Space.ray, Coordinates.ray, Coordinates.neg, List.zipWith_map_left, List.map_zipWith,
    neg_add, mul_neg]

theorem neg_combine : neg (Space.combine v s w t) = Space.combine (neg v) s (neg w) t := by
  simp only [Space.combine, Coordinates.combine, Coordinates.neg, List.zipWith_map,
    List.map_zipWith, neg_add, neg_mul]

variable (a : DenseMatrix ℝ)

theorem DenseMatrix.apply_neg : a.neg.apply v = Coordinates.neg (a.apply v) := by
  simp only [apply, neg, Coordinates.neg, List.map_map]
  exact List.map_congr_left fun row _ => dot_neg_left row v

theorem DenseMatrix.apply_neg_neg : a.neg.apply (Coordinates.neg v) = a.apply v := by
  simp only [apply, neg, List.map_map]
  exact List.map_congr_left fun row _ => dot_neg_neg row v

theorem DenseMatrix.toMatrix_neg (n : ℕ) : a.neg.toMatrix n = -a.toMatrix n := by
  ext i j
  show ((a.rows.map Coordinates.neg).getD i (Coordinates.neg [])).getD j 0 = _
  rw [List.getD_map, ← neg_zero]
  exact List.getD_map _ _ _

end Operations

/-- The record of the mirrored run. -/
noncomputable def SolverRecord.mirrored (r : SolverRecord ℝ) : SolverRecord ℝ where
  x := r.x
  direction := neg r.direction
  step := -r.step

namespace ConjugateGradient

/-! ## The states of two runs -/

/-- `t` is the state of the mirrored run where `s` is that of the run. Their histories do not
matter. -/
structure State.Mirrors (s t : State ℝ) : Prop where
  x_eq : t.x = s.x
  residual_eq : t.residual = neg s.residual
  direction_eq : t.direction = neg s.direction
  squared_eq : t.residualSquared = s.residualSquared
  lastStep_eq : t.lastStep = -s.lastStep
  iterations_eq : t.iterations = s.iterations

variable {m : ConjugateGradient ℝ} {a : DenseMatrix ℝ} {s t s' t' : State ℝ}

namespace State

theorem mirrors_initial (a : DenseMatrix ℝ) (b x : List ℝ) (history : Recorder (SolverRecord ℝ)) :
    (initial a b x history).Mirrors (initial a.neg (neg b) x history) := by
  have hresidual : Space.ray (neg b) (a.neg.apply x) (-1) = neg (Space.ray b (a.apply x) (-1)) := by
    rw [DenseMatrix.apply_neg, ray_neg_neg, neg_ray, neg_neg]
  refine ⟨rfl, hresidual, hresidual, ?_, neg_zero.symm, rfl⟩
  show Space.dot (Space.ray (neg b) (a.neg.apply x) (-1))
    (Space.ray (neg b) (a.neg.apply x) (-1)) = _
  rw [hresidual, dot_neg_neg]
  rfl

namespace Mirrors

variable (h : s.Mirrors t)
include h

theorem converged_iff : m.Converged t ↔ m.Converged s := by
  unfold Converged residualNorm
  rw [h.squared_eq]

theorem curvature_eq : t.curvature a.neg = -s.curvature a := by
  unfold curvature
  rw [h.direction_eq, DenseMatrix.apply_neg_neg, dot_neg_left]

theorem stuck_iff : t.Stuck a.neg ↔ s.Stuck a := by
  rw [ConjugateGradient.stuck_iff, ConjugateGradient.stuck_iff, h.curvature_eq, neg_eq_zero]

theorem step_eq : t.residualSquared / t.curvature a.neg = -(s.residualSquared / s.curvature a) := by
  rw [h.squared_eq, h.curvature_eq, div_neg]

theorem advanced : (s.advanced a).Mirrors (t.advanced a.neg) := by
  have hresidual : (t.advanced a.neg).residual = neg (s.advanced a).residual := by
    unfold State.advanced
    rw [h.step_eq, h.residual_eq, h.direction_eq, DenseMatrix.apply_neg_neg, neg_ray]
  refine ⟨?_, hresidual, h.direction_eq, ?_, h.step_eq, congrArg (· + 1) h.iterations_eq⟩
  · unfold State.advanced
    rw [h.step_eq, h.x_eq, h.direction_eq, ray_neg_neg]
  · show Space.dot (t.advanced a.neg).residual (t.advanced a.neg).residual = _
    rw [hresidual, dot_neg_neg]
    rfl

theorem next : (s.next a).Mirrors (t.next a.neg) := by
  have hnew := h.advanced (a := a)
  refine { hnew with direction_eq := ?_ }
  unfold State.next
  dsimp only
  rw [h.direction_eq, hnew.squared_eq, h.squared_eq, hnew.residual_eq, neg_combine]

theorem head (k : ℕ) : (s.head a k).Mirrors (t.head a.neg k) := by
  induction k with
  | zero => exact h
  | succ k ih => exact ih.next

theorem after (k : ℕ) : (s.after m a k).Mirrors (t.after m a.neg k) := by
  cases k with
  | zero => exact h
  | succ k =>
    have hlast := (h.head (a := a) k).advanced (a := a)
    rw [State.after, State.after]
    by_cases hconv : m.Converged ((s.head a k).advanced a)
    · rw [if_pos hconv, if_pos (hlast.converged_iff.mpr hconv)]
      exact hlast
    · rw [if_neg hconv, if_neg (mt hlast.converged_iff.mp hconv)]
      exact h.head (k + 1)

theorem entry_eq : t.entry a.neg = (s.entry a).mirrored := by
  unfold entry SolverRecord.mirrored
  rw [h.x_eq, h.direction_eq, h.step_eq]

/-- The two runs do the same number of iterations. -/
theorem iterations_outcome {budget steps steps' : ℕ} (hzero : s.iterations = 0)
    (hs : Outcome m a s budget steps s') (ht : Outcome m a.neg t budget steps' t') :
    t'.iterations = s'.iterations := by
  have hzero' : t.iterations = 0 := h.iterations_eq.trans hzero
  have hend : ∀ k, (t.head a.neg k).Stuck a.neg ∨ m.Converged (t.head a.neg k) ↔
      (s.head a k).Stuck a ∨ m.Converged (s.head a k) := fun k =>
    or_congr (h.head k).stuck_iff (h.head k).converged_iff
  apply le_antisymm
  · rcases (hs.iterations_le hzero).lt_or_eq with hlt | heq
    · exact ht.iterations_le_of_ended hzero' ((hend _).mpr (hs.ended hzero hlt))
    · exact heq ▸ ht.iterations_le hzero'
  · rcases (ht.iterations_le hzero').lt_or_eq with hlt | heq
    · exact hs.iterations_le_of_ended hzero ((hend _).mp (ht.ended hzero' hlt))
    · exact heq ▸ hs.iterations_le hzero

/-- Where the one run ends, the other one ends with the mirrored state. -/
theorem outcome {budget steps steps' : ℕ} (hzero : s.iterations = 0)
    (hs : Outcome m a s budget steps s') (ht : Outcome m a.neg t budget steps' t') :
    s'.Mirrors t' := by
  rw [hs.state_eq hzero, ht.state_eq (h.iterations_eq.trans hzero),
    h.iterations_outcome hzero hs ht]
  exact h.after _

theorem solution_eq :
    t.solution m = { s.solution m with step := -(s.solution m).step } := by
  have hconverged : decide (m.Converged t) = decide (m.Converged s) :=
    decide_eq_decide.mpr h.converged_iff
  unfold solution residualNorm
  rw [h.x_eq, h.iterations_eq, h.squared_eq, h.lastStep_eq, hconverged]

theorem records_eq (h' : s'.Mirrors t') :
    t.records a.neg t' = (s.records a s').map SolverRecord.mirrored := by
  unfold records entries
  rw [List.map_append, List.map_map, h'.iterations_eq, h'.x_eq, h'.direction_eq, h'.lastStep_eq]
  exact congrArg (· ++ _) (List.map_congr_left fun k _ => (h.head k).entry_eq)

end Mirrors

end State

/-! ## Whole runs -/

theorem checkShapes_neg (b x : List ℝ) :
    checkShapes a.neg (neg b) x = checkShapes a b x := by
  unfold checkShapes
  rw [a.rowCount_neg, length_neg]
  rfl

theorem Refused.mirrored {b x : List ℝ} {e : SolveError} (h : Refused a b x e) :
    Refused a.neg (neg b) x e :=
  checkShapes_error_iff.mp ((checkShapes_neg b x).trans (checkShapes_of_refused h))

section Definite

variable {n k : ℕ} {b x : List ℝ} (hneg : (-a.toMatrix n).PosDef) (htol : 0 ≤ m.tolerance)
  (ha : a.Square n) (hb : b.length = n) (h : s.Mirrors t) (ht : t.Tracks a.neg (neg b) n)
  (hfirst : t.direction = t.residual)
include hneg htol ha hb h ht hfirst

/-- Along a direction of negative curvature the step is negative. -/
theorem step_neg_of_negative_definite (harrives : Arrives m a.neg t k t') :
    ∀ r ∈ s.entries a k, r.step < 0 := by
  rw [← DenseMatrix.toMatrix_neg] at hneg
  intro r hr
  obtain ⟨j, hj, rfl⟩ := List.mem_map.mp hr
  obtain ⟨hcurved, hsquared, -⟩ := harrives.energy_step ha.neg ((length_neg b).trans hb) ht hneg
    hfirst htol (List.mem_range.mp hj)
  have hstep := div_pos hsquared hcurved
  rw [(h.head j).step_eq] at hstep
  exact neg_pos.mp hstep

theorem converged_of_negative_definite {budget steps steps' : ℕ} (hzero : s.iterations = 0)
    (hbudget : n ≤ budget) (hs : Outcome m a s budget steps s')
    (ht' : Outcome m a.neg t budget steps' t') : m.Converged s' ∧ s'.iterations ≤ n := by
  rw [← DenseMatrix.toMatrix_neg] at hneg
  have hend := h.outcome hzero hs ht'
  obtain ⟨hconv, hiterations, -⟩ := ht'.converged ha.neg hneg ((length_neg b).trans hb) htol ht
    hfirst (h.iterations_eq.trans hzero) hbudget
  exact ⟨hend.converged_iff.mp hconv, hend.iterations_eq ▸ hiterations⟩

end Definite

/-- A run and the run of the mirrored system, for matrices of any shape. Both are refused with the
same error, or both return. Then the iterates, their number, the norm of the residual and the
verdict are the same, and every direction and every step is turned around. There is a record for the
guess and one for every iteration. If the matrix is negative definite, the steps of all iterations
are negative, and with enough iterations allowed the system is solved in no more of them than there
are unknowns. -/
theorem run_mirrored (m : ConjugateGradient ℝ) (a : DenseMatrix ℝ) (b x : List ℝ)
    (history : Recorder (SolverRecord ℝ)) (log : Array (SolverEvent ℝ)) :
    (∃ e, Refused a b x e ∧ m.run a b x history log = .error e log ∧
      m.run a.neg (neg b) x history log = .error e log) ∨
    ∃ (solution : Solution ℝ) (records : List (SolverRecord ℝ)) (log₁ log₂ : Array (SolverEvent ℝ)),
      m.run a b x history log = .ok (solution, history.recordAll records) log₁ ∧
      m.run a.neg (neg b) x history log =
        .ok ({ solution with step := -solution.step },
          history.recordAll (records.map SolverRecord.mirrored)) log₂ ∧
      records.length = solution.iterations + 1 ∧
      ((-a.toMatrix x.length).PosDef → 0 ≤ m.tolerance →
        (∀ r ∈ records.take solution.iterations, r.step < 0) ∧
        (x.length ≤ m.limit.getD x.length →
          solution.converged = true ∧ solution.iterations ≤ x.length ∧
          Space.norm (Space.ray b (a.apply solution.x) (-1)) ≤ m.tolerance)) := by
  by_cases hrefused : ∃ e, Refused a b x e
  · obtain ⟨e, he⟩ := hrefused
    exact .inl ⟨e, he, run_of_refused he, run_of_refused he.mirrored⟩
  obtain ⟨ha, hb⟩ := fits_of_not_refused (not_exists.mp hrefused)
  have hb' : (neg b).length = x.length := (length_neg b).trans hb
  have hmirrors := State.mirrors_initial a b x history
  obtain ⟨steps, s', hs, hrun⟩ := run_run (m := m) ha hb rfl history log
  obtain ⟨steps', t', ht, hrun'⟩ := run_run (m := m) ha.neg hb' rfl history log
  have hend := hmirrors.outcome rfl hs ht
  rw [hs.record_eq rfl] at hrun
  rw [ht.record_eq rfl, hmirrors.records_eq hend, hend.solution_eq] at hrun'
  refine .inr ⟨_, (State.initial a b x history).records a s', _, _, hrun, hrun',
    State.length_records, fun hneg htol => ?_⟩
  have htracks := State.tracks_initial ha.neg hb' rfl history
  constructor
  · intro r (hr : r ∈ ((State.initial a b x history).records a s').take s'.iterations)
    rw [State.take_records] at hr
    have harrives := ht.arrives rfl
    rw [hend.iterations_eq] at harrives
    exact step_neg_of_negative_definite hneg htol ha hb hmirrors htracks rfl harrives r hr
  · intro hbudget
    obtain ⟨hconv, hiterations⟩ :=
      converged_of_negative_definite hneg htol ha hb hmirrors htracks rfl rfl hbudget hs ht
    have hnorm := (hs.tracks ha hb (State.tracks_initial ha hb rfl history)).residualNorm_eq
    exact ⟨decide_eq_true hconv, hiterations, hnorm.symm.trans_le hconv⟩

/-- The system `-ellipse x = b` has a negative definite matrix. -/
theorem run_mirrored_of_ellipse :
    ∃ (solution : Solution ℝ) (records : List (SolverRecord ℝ)) (log₁ log₂ : Array (SolverEvent ℝ)),
      (ConjugateGradient.mk 0 none).run ellipse.neg [1, 0] [0, 1] (some #[]) #[] =
        .ok (solution, Recorder.recordAll (some #[]) records) log₁ ∧
      (ConjugateGradient.mk 0 none).run ellipse.neg.neg (neg [1, 0]) [0, 1] (some #[]) #[] =
        .ok ({ solution with step := -solution.step },
          Recorder.recordAll (some #[]) (records.map SolverRecord.mirrored)) log₂ ∧
      (∀ r ∈ records.take solution.iterations, r.step < 0) ∧
      solution.converged = true ∧ solution.iterations ≤ 2 := by
  obtain ⟨e, he, -⟩ | ⟨solution, records, log₁, log₂, hrun, hrun', -, hdefinite⟩ :=
    run_mirrored (ConjugateGradient.mk 0 none) ellipse.neg [1, 0] [0, 1] (some #[]) #[]
  · cases he with
    | matrix notSquare => exact absurd rfl notSquare
    | rightSide _ misfit => exact absurd rfl misfit
    | guess _ _ misfit => exact absurd rfl misfit
  · have hneg : (-ellipse.neg.toMatrix 2).PosDef := by
      rw [DenseMatrix.toMatrix_neg, neg_neg]
      exact ellipse_posDef
    obtain ⟨hsteps, hsolved⟩ := hdefinite hneg le_rfl
    obtain ⟨hconverged, hiterations, -⟩ := hsolved le_rfl
    exact ⟨solution, records, log₁, log₂, hrun, hrun', hsteps, hconverged, hiterations⟩

end ConjugateGradient

end Descent

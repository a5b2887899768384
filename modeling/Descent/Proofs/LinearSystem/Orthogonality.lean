import Descent.Proofs.LinearSystem.Residual

/-!
# Orthogonal residuals and conjugate directions

In exact arithmetic, for symmetric matrices that need not be definite and may be singular. A
direction of negative curvature is followed like any other; only one without curvature is not.

* `Arrives.regular`: the steps that a run has taken divide by nothing that is zero.
* `Arrives.dot_residual`, `Arrives.dot_image`, `Arrives.dot_direction`: what the recorded residuals
  and directions of such a run have to do with each other and with the last residual.
* `Outcome.ending`: a run that is not cut off converges or ends at a direction without curvature.
* `run_conjugate`: the same for the records and the report of a whole run.
-/

open scoped RealInnerProductSpace

namespace Descent

/-- The residual of a recorded iterate. -/
noncomputable def SolverRecord.residual (a : DenseMatrix ℝ) (b : List ℝ) (r : SolverRecord ℝ) :
    List ℝ :=
  Space.ray b (a.apply r.x) (-1)

namespace ConjugateGradient

variable {m : ConjugateGradient ℝ} {n k : ℕ} {a : DenseMatrix ℝ} {b x : List ℝ} {s s' : State ℝ}

theorem stuck_iff : s.Stuck a ↔ s.curvature a = 0 := by
  unfold State.Stuck
  rw [beq_iff_eq]
  exact ⟨fun h => h.2, fun h => ⟨h.le, h⟩⟩

theorem State.Tracks.residual_entry (h : s.Tracks a b n) :
    (s.entry a).residual a b = s.residual :=
  h.residual_eq.symm

section Arrives

variable (ha : a.Square n) (hb : b.length = n) (hs : s.Tracks a b n) (h : Arrives m a s k s')
include ha hb hs h

theorem Arrives.residual_last : Space.ray b (a.apply s'.x) (-1) = (s.head a k).residual := by
  rw [h.x_eq, (hs.head ha hb k).residual_eq]

theorem Arrives.regular (htol : 0 ≤ m.tolerance) :
    ConjugateSteps.Regular (a.toLin n) (fun j => toEuclidean n (s.head a j).residual)
      (fun j => toEuclidean n (s.head a j).direction) k where
  curved j hj := by
    rw [← (hs.head ha hb j).fits.curvature_eq_inner ha]
    exact mt stuck_iff.mpr (h.free j hj)
  unsolved j hj := residual_ne_zero htol (hs.head ha hb j) (h.unsolved j hj)

variable (hsymm : (a.toLin n).IsSymmetric) (htol : 0 ≤ m.tolerance)
  (hfirst : s.direction = s.residual) {i j : ℕ}
include hsymm htol hfirst

theorem Arrives.dot_residual (hi : i ≤ k) (hj : j ≤ k) (hij : i ≠ j) :
    Space.dot (s.head a i).residual (s.head a j).residual = 0 := by
  rw [dot_eq_inner (hs.head ha hb i).fits.residual (hs.head ha hb j).fits.residual]
  exact (conjugateSteps ha hb hs hfirst).inner_residual_of_ne hsymm (h.regular ha hb hs htol) hi hj
    hij

theorem Arrives.dot_image (hi : i ≤ k) (hj : j ≤ k) (hij : i ≠ j) :
    Space.dot (s.head a i).direction (a.apply (s.head a j).direction) = 0 := by
  have hfits := (hs.head ha hb j).fits
  rw [dot_eq_inner (hs.head ha hb i).fits.direction (ha.length_apply _),
    DenseMatrix.toEuclidean_apply ha hfits.direction]
  exact (conjugateSteps ha hb hs hfirst).inner_image_of_ne hsymm (h.regular ha hb hs htol) hi hj hij

theorem Arrives.dot_direction (hi : i < k) :
    Space.dot (s.head a i).direction (s.head a k).residual = 0 := by
  rw [dot_eq_inner (hs.head ha hb i).fits.direction (hs.head ha hb k).fits.residual]
  exact ((conjugateSteps ha hb hs hfirst).conjugate_of_le hsymm (h.regular ha hb hs htol)
    le_rfl).directions i hi

/-- No more steps are taken than there are unknowns. -/
theorem Arrives.le_unknowns : k ≤ n := by
  have hle := (conjugateSteps ha hb hs hfirst).le_finrank hsymm (h.regular ha hb hs htol)
  rwa [finrank_euclideanSpace_fin] at hle

end Arrives

/-- A run has converged, or it ends at a direction which does not vanish but has no curvature, or it
was cut off before there could be as many steps as unknowns. -/
theorem Outcome.ending (ha : a.Square n) (hb : b.length = n) (hs : s.Tracks a b n)
    (hsymm : (a.toLin n).IsSymmetric) (htol : 0 ≤ m.tolerance) (hfirst : s.direction = s.residual)
    (hzero : s.iterations = 0) {budget steps : ℕ} (h : Outcome m a s budget steps s') :
    m.Converged s' ∨ (0 < Space.norm s'.direction ∧ s'.curvature a = 0) ∨
      s'.iterations = budget ∧ budget < n := by
  have harrives := h.arrives hzero
  have hsteps := conjugateSteps ha hb hs hfirst
  cases h with
  | atOnce converged => exact .inl converged
  | iterated unsolved exit =>
    cases exit with
    | exhausted moves =>
      have hcount := State.iterations_head_of_zero (a := a) hzero budget
      rw [hcount] at harrives
      have hne := residual_ne_zero htol (hs.head ha hb budget)
        (unsolved_of_moves unsolved moves budget le_rfl)
      have hlt := hsteps.lt_finrank hsymm (harrives.regular ha hb hs htol) hne
      rw [finrank_euclideanSpace_fin] at hlt
      exact .inr (.inr ⟨hcount, hlt⟩)
    | @stuck k before moves stuck =>
      have hcount := State.iterations_head_of_zero (a := a) hzero k
      rw [hcount] at harrives
      have htracks := hs.head ha hb k
      have hne := residual_ne_zero htol htracks (unsolved_of_moves unsolved moves k le_rfl)
      have hself := hsteps.inner_direction_self (harrives.regular ha hb hs htol).curved
      refine .inr (.inl ⟨?_, stuck_iff.mp stuck⟩)
      rw [norm_eq_norm htracks.fits.direction, norm_pos_iff]
      -- A direction that vanishes would be orthogonal to the residual.
      intro h0
      rw [h0, inner_zero_left] at hself
      exact hne (inner_self_eq_zero.mp hself.symm)
    | solved before moves free converged => exact .inl converged

/-- What a run records and returns, for a symmetric matrix: different residuals are orthogonal and
different directions conjugate, and the last residual is orthogonal to all before it and to their
directions. So there are no more iterations than unknowns, whatever the limit is, and a run that is
not cut off converges or ends at a direction without curvature. -/
theorem run_conjugate (m : ConjugateGradient ℝ) (ha : a.Square n)
    (hsymm : (a.toMatrix n).IsSymm) (hb : b.length = n) (hx : x.length = n)
    (htol : 0 ≤ m.tolerance) (history : Recorder (SolverRecord ℝ)) (log : Array (SolverEvent ℝ)) :
    ∃ (solution : Solution ℝ) (records : List (SolverRecord ℝ)) (last : SolverRecord ℝ)
      (log' : Array (SolverEvent ℝ)),
      m.run a b x history log = .ok (solution, history.recordAll (records ++ [last])) log' ∧
      records.length = solution.iterations ∧ last.x = solution.x ∧
      (∀ i j : Fin records.length, i ≠ j →
        Space.dot (records[i].residual a b) (records[j].residual a b) = 0 ∧
        Space.dot records[i].direction (a.apply records[j].direction) = 0) ∧
      (∀ r ∈ records, Space.dot (r.residual a b) (last.residual a b) = 0 ∧
        Space.dot r.direction (last.residual a b) = 0) ∧
      solution.iterations ≤ n ∧
      (solution.converged = true ∨
        (0 < Space.norm last.direction ∧
          Space.dot last.direction (a.apply last.direction) = 0) ∨
        solution.iterations = m.limit.getD n ∧ m.limit.getD n < n) := by
  have hT := DenseMatrix.isSymmetric_toLin (Matrix.isHermitian_iff_isSymm.mpr hsymm)
  have hs := State.tracks_initial ha hb hx history
  obtain ⟨steps, s', hend, hrun⟩ := run_run (m := m) ha hb hx history log
  have h := hend.arrives rfl
  have hlast := h.residual_last ha hb hs
  have hentry : ∀ j, (((State.initial a b x history).head a j).entry a).residual a b =
      ((State.initial a b x history).head a j).residual := fun j =>
    (hs.head ha hb j).residual_entry
  rw [h.record_eq] at hrun
  refine ⟨_, _, _, _, hrun, State.length_entries _, rfl, ?_, ?_,
    h.le_unknowns ha hb hs hT htol rfl, ?_⟩
  · rintro ⟨i, hi⟩ ⟨j, hj⟩ hij
    have hij : i ≠ j := fun he => hij (Fin.ext he)
    rw [Fin.getElem_fin, Fin.getElem_fin, State.getElem_entries, State.getElem_entries, hentry,
      hentry]
    rw [State.length_entries] at hi hj
    exact ⟨h.dot_residual ha hb hs hT htol rfl hi.le hj.le hij,
      h.dot_image ha hb hs hT htol rfl hi.le hj.le hij⟩
  · intro r hr
    obtain ⟨j, hj, rfl⟩ := List.mem_map.mp hr
    have hj := List.mem_range.mp hj
    rw [hentry]
    constructor
    · exact (congrArg _ hlast).trans (h.dot_residual ha hb hs hT htol rfl hj.le le_rfl hj.ne)
    · exact (congrArg _ hlast).trans (h.dot_direction ha hb hs hT htol rfl hj)
  · exact (hend.ending ha hb hs hT htol rfl rfl).imp_left decide_eq_true

/-- A symmetric matrix that is not definite. -/
def saddle : DenseMatrix ℝ where
  columnCount := 2
  rows := [[1, 0], [0, -1]]
  length_of_mem := by simp

/-- A system with directions of both kinds of curvature. -/
theorem run_conjugate_on_saddle :
    Space.dot [0, 1] (saddle.apply [0, 1]) < (0 : ℝ) ∧
    ∃ (solution : Solution ℝ) (records : List (SolverRecord ℝ)) (last : SolverRecord ℝ)
      (log' : Array (SolverEvent ℝ)),
      (ConjugateGradient.mk 0 (some 9)).run saddle [1 + 1, 1] [0, 0] (some #[]) #[] =
        .ok (solution, Recorder.recordAll (some #[]) (records ++ [last])) log' ∧
      records.length = solution.iterations ∧ solution.iterations ≤ 2 ∧
      (∀ i j : Fin records.length, i ≠ j →
        Space.dot records[i].direction (saddle.apply records[j].direction) = 0) ∧
      (solution.converged = true ∨
        0 < Space.norm last.direction ∧
          Space.dot last.direction (saddle.apply last.direction) = 0) := by
  constructor
  · simp [Space.dot, Coordinates.dot, saddle, DenseMatrix.apply]
  have hsymm : (saddle.toMatrix 2).IsSymm := by
    ext i j
    fin_cases i <;> fin_cases j <;> rfl
  obtain ⟨solution, records, last, log', hrun, hlength, -, hpairs, -, hle, hend⟩ :=
    run_conjugate ⟨0, some 9⟩ (a := saddle) (n := 2) (b := [1 + 1, 1]) (x := [0, 0]) ⟨rfl, rfl⟩
      hsymm rfl rfl le_rfl (some #[]) #[]
  refine ⟨solution, records, last, log', hrun, hlength, hle, fun i j hij => (hpairs i j hij).2, ?_⟩
  rcases hend with hconverged | hstuck | ⟨-, hcut⟩
  · exact .inl hconverged
  · exact .inr hstuck
  · exact absurd hcut (by decide)

end ConjugateGradient

end Descent

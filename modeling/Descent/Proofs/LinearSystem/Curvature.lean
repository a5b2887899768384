import Descent.Proofs.LinearSystem.Orthogonality
import Descent.Proofs.LinearSystem.Refusals

/-!
# When the linear solver warns

An iteration warns if the curvature of its direction is not positive, and if it is negative goes on.
In exact arithmetic the warning is always right, for matrices that need not be symmetric either: no
direction vanishes at the head of an iteration.

* `Executes`: the states from which the loop does its iterations, the last one included, which may
  get stuck. `Outcome.executes_iff` counts them.
* `Outcome.mem_reports_iff`: the warnings are the curvatures there that are not positive.
* `AtHead.inner_direction`, `Executes.squared_pos`, `Executes.direction_pos`: the direction and the
  residual have the product `⟨r, r⟩`, which is positive.
* `DenseMatrix.Positive`: every vector but zero has positive curvature.
* `run_warns`: a run warns exactly of these directions, and never for a positive matrix.
-/

open scoped RealInnerProductSpace

namespace Descent

/-- Every vector but zero has positive curvature under the matrix, which need not be symmetric. -/
def DenseMatrix.Positive (n : ℕ) (a : DenseMatrix ℝ) : Prop :=
  ∀ v : List ℝ, v.length = n → 0 < Space.norm v → 0 < Space.dot v (a.apply v)

/-- Positive definite matrices are the symmetric ones among them. -/
theorem DenseMatrix.positive_of_posDef {n : ℕ} {a : DenseMatrix ℝ} (ha : a.Square n)
    (h : (a.toMatrix n).PosDef) : a.Positive n := by
  intro v hv hpos
  rw [norm_eq_norm hv, norm_pos_iff] at hpos
  rw [dot_eq_inner hv (ha.length_apply v), toEuclidean_apply ha hv]
  exact inner_toLin_pos h hpos

namespace ConjugateGradient

/-! ## The iterations of a run -/

section Iterations

variable {S : Type} [Scalar S] {m : ConjugateGradient S} {a : DenseMatrix S} {s s' t : State S}
  {n budget steps k : ℕ}

/-- The loop does an iteration from the state: it is entered, it comes to the state, and there are
iterations left. -/
structure Executes (m : ConjugateGradient S) (a : DenseMatrix S) (s : State S) (budget : ℕ)
    (t : State S) : Prop where
  entered : ¬m.Converged s
  head : AtHead m a s t
  within : t.iterations < budget

theorem progress_of_moves (h : m.Moves a s) : m.progress a s = .moved (s.next a) := by
  unfold progress
  rw [if_neg h.free, if_neg h.unsolved]

theorem moves_of_step_moved (ha : a.Square n) (hs : s.Fits n) {log log' : Array (SolverEvent S)}
    (h : m.step a s log = .ok (.moved t) log') : m.Moves a s := by
  rw [step_run ha hs] at h
  unfold progress at h
  split at h
  · cases h
  rename_i free
  split at h
  · cases h
  rename_i unsolved
  exact ⟨free, unsolved⟩

theorem AtHead.exists_head (ha : a.Square n) (hs : s.Fits n) (h : AtHead m a s t) :
    ∃ k, s.head a k = t ∧ ∀ j < k, m.Moves a (s.head a j) := by
  induction h with
  | first => exact ⟨0, rfl, by simp⟩
  | next head moved ih =>
    obtain ⟨k, rfl, hmoves⟩ := ih
    have hfits := head.fits ha hs
    refine ⟨k + 1, (eq_next_of_step_moved ha hfits moved).symm, fun j hj => ?_⟩
    rcases Nat.lt_or_eq_of_le (Nat.le_of_lt_succ hj) with hlt | rfl
    · exact hmoves j hlt
    · exact moves_of_step_moved ha hfits moved

theorem atHead_head (ha : a.Square n) (hs : s.Fits n) (h : ∀ j < k, m.Moves a (s.head a j)) :
    AtHead m a s (s.head a k) := by
  induction k with
  | zero => exact .first
  | succ k ih =>
    have hhead := ih fun j hj => h j (Nat.lt_succ_of_lt hj)
    have hstep := step_run (m := m) ha (hhead.fits ha hs) #[]
    rw [progress_of_moves (h k k.lt_succ_self)] at hstep
    exact .next hhead hstep

/-- Which iterations a run begins. -/
theorem Outcome.lt_steps_iff (h : Outcome m a s budget steps s') :
    k < steps ↔ ¬m.Converged s ∧ k < budget ∧ ∀ j < k, m.Moves a (s.head a j) := by
  cases h with
  | atOnce converged => exact iff_of_false (Nat.not_lt_zero k) fun h => h.1 converged
  | iterated unsolved exit =>
    cases exit with
    | exhausted moves =>
      exact ⟨fun hk => ⟨unsolved, hk, fun j hj => moves j (hj.trans hk)⟩, fun h => h.2.1⟩
    | @stuck last before moves stuck =>
      refine ⟨fun hk => ⟨unsolved, by omega, fun j hj => moves j (by omega)⟩, fun h => ?_⟩
      by_contra hk
      exact (h.2.2 last (by omega)).free stuck
    | @solved last before moves _ converged =>
      refine ⟨fun hk => ⟨unsolved, by omega, fun j hj => moves j (by omega)⟩, fun h => ?_⟩
      by_contra hk
      exact (h.2.2 last (by omega)).unsolved converged

/-- The states from which a run does its iterations are the first heads, one for every iteration. -/
theorem Outcome.executes_iff (ha : a.Square n) (hs : s.Fits n) (hzero : s.iterations = 0)
    (h : Outcome m a s budget steps s') :
    Executes m a s budget t ↔ ∃ k < steps, s.head a k = t := by
  constructor
  · rintro ⟨entered, head, within⟩
    obtain ⟨k, rfl, hmoves⟩ := head.exists_head ha hs
    rw [State.iterations_head_of_zero hzero] at within
    exact ⟨k, h.lt_steps_iff.mpr ⟨entered, within, hmoves⟩, rfl⟩
  · rintro ⟨k, hk, rfl⟩
    obtain ⟨entered, within, hmoves⟩ := h.lt_steps_iff.mp hk
    refine ⟨entered, atHead_head ha hs hmoves, ?_⟩
    rwa [State.iterations_head_of_zero hzero]

/-! ## The warnings of a run -/

omit [Scalar S] in
theorem exists_curvature_of_level {e : SolverEvent S} (h : e.level = .warn) :
    ∃ c, e = .nonPositiveCurvature c := by
  cases e with
  | nonPositiveCurvature c => exact ⟨c, rfl⟩
  | iterated _ _ => cases h
  | finished _ _ _ => cases h

theorem State.mem_events_iff {c : S} :
    .nonPositiveCurvature c ∈ s.events a ↔ c ≤ 0 ∧ s.curvature a = c := by
  have hlast : .nonPositiveCurvature c ∉ (if s.Stuck a then ([] : List (SolverEvent S))
      else [.iterated (s.advanced a).iterations (s.advanced a).residualNorm]) := by
    split <;> simp
  rw [events, List.mem_append, or_iff_left hlast]
  by_cases hc : s.curvature a ≤ 0
  · rw [if_pos hc, List.mem_singleton, SolverEvent.nonPositiveCurvature.injEq]
    exact ⟨fun h => ⟨h ▸ hc, h.symm⟩, fun h => h.2.symm⟩
  · rw [if_neg hc]
    exact iff_of_false List.not_mem_nil fun h => hc (h.2 ▸ h.1)

theorem Outcome.mem_reports_iff (ha : a.Square n) (hs : s.Fits n) (hzero : s.iterations = 0)
    (h : Outcome m a s budget steps s') {c : S} :
    .nonPositiveCurvature c ∈ s.reports a steps ↔
      c ≤ 0 ∧ ∃ t, Executes m a s budget t ∧ t.curvature a = c := by
  rw [State.reports, List.mem_flatMap]
  constructor
  · rintro ⟨k, hk, hmem⟩
    obtain ⟨hc, hcurvature⟩ := State.mem_events_iff.mp hmem
    exact ⟨hc, _, (h.executes_iff ha hs hzero).mpr ⟨k, List.mem_range.mp hk, rfl⟩, hcurvature⟩
  · rintro ⟨hc, t, ht, hcurvature⟩
    obtain ⟨k, hk, rfl⟩ := (h.executes_iff ha hs hzero).mp ht
    exact ⟨k, List.mem_range.mpr hk, State.mem_events_iff.mpr ⟨hc, hcurvature⟩⟩

end Iterations

/-! ## Exact arithmetic -/

variable {m : ConjugateGradient ℝ} {n budget : ℕ} {a : DenseMatrix ℝ} {b x : List ℝ}
  {s t : State ℝ}

section Heads

variable (ha : a.Square n) (hb : b.length = n) (hs : s.Tracks a b n)
include ha hb hs

/-- The part of a direction that comes from the directions before is orthogonal to the residual. -/
theorem AtHead.inner_direction (hfirst : s.direction = s.residual) (h : AtHead m a s t) :
    ⟪toEuclidean n t.direction, toEuclidean n t.residual⟫ = t.residualSquared := by
  obtain ⟨k, rfl, hmoves⟩ := h.exists_head ha hs.fits
  have hcurved : ∀ j < k, ⟪toEuclidean n (s.head a j).direction,
      a.toLin n (toEuclidean n (s.head a j).direction)⟫ ≠ 0 := by
    intro j hj
    rw [← (hs.head ha hb j).fits.curvature_eq_inner ha]
    exact mt stuck_iff.mpr (hmoves j hj).free
  rw [(hs.head ha hb k).squared_eq_inner]
  exact (conjugateSteps ha hb hs hfirst).inner_direction_self hcurved

/-- No iteration begins at a solution. -/
theorem Executes.squared_pos (htol : 0 ≤ m.tolerance) (h : Executes m a s budget t) :
    0 < t.residualSquared := by
  obtain ⟨k, rfl, hmoves⟩ := h.head.exists_head ha hs.fits
  have htracks := hs.head ha hb k
  rw [htracks.squared_eq_inner]
  exact real_inner_self_pos.mpr
    (residual_ne_zero htol htracks (unsolved_of_moves h.entered hmoves k le_rfl))

theorem Executes.direction_pos (hfirst : s.direction = s.residual) (htol : 0 ≤ m.tolerance)
    (h : Executes m a s budget t) : 0 < Space.norm t.direction := by
  rw [norm_eq_norm (h.head.fits ha hs.fits).direction, norm_pos_iff]
  intro h0
  have hinner := h.head.inner_direction ha hb hs hfirst
  rw [h0, inner_zero_left] at hinner
  exact (h.squared_pos ha hb hs htol).ne hinner

/-- A direction without positive curvature shows that the matrix is not positive. -/
theorem Executes.not_positive (hfirst : s.direction = s.residual) (htol : 0 ≤ m.tolerance)
    (h : Executes m a s budget t) (hc : t.curvature a ≤ 0) : ¬a.Positive n := fun hpos =>
  hc.not_gt (hpos _ (h.head.fits ha hs.fits).direction (h.direction_pos ha hb hs hfirst htol))

end Heads

/-- What the warnings of a run mean, for any square matrix. Whenever the loop does an iteration, the
direction and the residual have the product `⟨r, r⟩`, which is the square that the solver keeps. It
is positive, and so the direction is not zero. The solver warns of a curvature if and only if it is
that of one of these directions and not positive. So if it warns at all, its matrix is neither
positive nor positive definite. -/
theorem run_warns (m : ConjugateGradient ℝ) (ha : a.Square n) (hb : b.length = n)
    (hx : x.length = n) (htol : 0 ≤ m.tolerance) (history : Recorder (SolverRecord ℝ))
    (log : Array (SolverEvent ℝ)) :
    ∃ s, start a b x history log = .ok s log ∧
      (∀ t, Executes m a s (m.limit.getD n) t →
        Space.dot t.direction t.residual = Space.dot t.residual t.residual ∧
        Space.dot t.residual t.residual = t.residualSquared ∧
        0 < t.residualSquared ∧ 0 < Space.norm t.direction) ∧
      ∃ (solution : Solution ℝ) (history' : Recorder (SolverRecord ℝ))
        (reports : List (SolverEvent ℝ)),
        m.run a b x history log = .ok (solution, history') (log ++ reports.toArray) ∧
        (∀ c, .nonPositiveCurvature c ∈ reports ↔
          c ≤ 0 ∧ ∃ t, Executes m a s (m.limit.getD n) t ∧
            Space.dot t.direction (a.apply t.direction) = c) ∧
        ((∃ e ∈ reports, e.level = .warn) →
          ¬a.Positive n ∧ ¬(a.toMatrix n).PosDef) := by
  have hs := State.tracks_initial ha hb hx history
  obtain ⟨steps, s', hend, hrun⟩ := run_run (m := m) ha hb hx history log
  have hwarns := fun c => hend.mem_reports_iff ha hs.fits rfl (c := c)
  refine ⟨_, start_run ha hb hx history log, fun t ht => ?_, s'.solution m, s'.record s'.lastStep,
    (State.initial a b x history).reports a steps ++
      [.finished (m.Converged s') s'.iterations s'.residualNorm], ?_, fun c => ?_, ?_⟩
  · have htracks := ht.head.tracks ha hb hs
    have hself : Space.dot t.residual t.residual = t.residualSquared := htracks.squared_eq.symm
    refine ⟨?_, hself, ht.squared_pos ha hb hs htol, ht.direction_pos ha hb hs rfl htol⟩
    rw [hself, ← ht.head.inner_direction ha hb hs rfl]
    exact dot_eq_inner htracks.fits.direction htracks.fits.residual
  · rw [hrun, ← List.append_toArray, ← Array.append_assoc]
    rfl
  · rw [List.mem_append, or_iff_left (by simp)]
    exact hwarns c
  · rintro ⟨e, he, hlevel⟩
    obtain ⟨c, rfl⟩ := exists_curvature_of_level hlevel
    rw [List.mem_append, or_iff_left (by simp)] at he
    obtain ⟨hc, t, ht, rfl⟩ := (hwarns c).mp he
    have hnot := ht.not_positive ha hb hs rfl htol hc
    exact ⟨hnot, fun hpos => hnot (DenseMatrix.positive_of_posDef ha hpos)⟩

/-- The first direction is `-1 2`, with the curvature `-7`. -/
theorem run_warns_under_shear :
    ∃ (solution : Solution ℝ) (history' : Recorder (SolverRecord ℝ))
      (reports : List (SolverEvent ℝ)),
      (ConjugateGradient.mk 0 (some 5)).run shear [1, 1] [0, 1] none #[] =
        .ok (solution, history') (#[] ++ reports.toArray) ∧
      .nonPositiveCurvature (-7) ∈ reports ∧ ¬shear.Positive 2 := by
  have hsquare : shear.Square 2 := ⟨rfl, rfl⟩
  obtain ⟨s, hstart, -, solution, history', reports, hrun, hwarns, hnot⟩ :=
    run_warns (ConjugateGradient.mk 0 (some 5)) hsquare (b := [1, 1]) (x := [0, 1]) rfl rfl le_rfl
      none #[]
  obtain rfl : State.initial shear [1, 1] [0, 1] none = s := by
    rw [start_run hsquare rfl rfl] at hstart
    cases hstart
    rfl
  have hdirection : (State.initial shear [1, 1] [0, 1] none).direction = [-1, 2] := by
    simp [State.initial, shear, DenseMatrix.apply, Space.ray, Coordinates.dot, Coordinates.ray]
    norm_num
  have hcurvature : Space.dot [-1, 2] (shear.apply [-1, 2]) = (-7 : ℝ) := by
    simp [shear, DenseMatrix.apply, Space.dot, Coordinates.dot]
    norm_num
  have hopen : ¬(ConjugateGradient.mk 0 (some 5)).Converged
      (State.initial shear [1, 1] [0, 1] none) := by
    have hsquared : (State.initial shear [1, 1] [0, 1] none).residualSquared = 5 := by
      show Space.dot (State.initial shear [1, 1] [0, 1] none).direction
        (State.initial shear [1, 1] [0, 1] none).direction = 5
      rw [hdirection]
      simp [Space.dot, Coordinates.dot]
      norm_num
    unfold Converged State.residualNorm
    rw [hsquared, not_le]
    exact Real.sqrt_pos.mpr (by norm_num)
  have hmem := (hwarns (-7)).mpr ⟨by norm_num, _, ⟨hopen, .first, by decide⟩, by
    rw [hdirection, hcurvature]⟩
  exact ⟨solution, history', reports, hrun, hmem, (hnot ⟨_, hmem, rfl⟩).1⟩

end ConjugateGradient

end Descent

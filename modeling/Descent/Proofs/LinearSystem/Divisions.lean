import Descent.Proofs.LinearSystem.Residual

/-!
# What the linear solver divides by

In exact arithmetic, for every square matrix and every tolerance, one that no residual meets
included. An iteration divides by the curvature of its direction, and the turn of the direction
divides by the square of the residual. The solver looks at the curvature first; it does not look at
the residual.

* `State.Linked`: a direction vanishes where the residual does. This holds at the head of every
  iteration.
* `State.Linked.denominators_ne_zero`: so an iteration that is not stuck divides by nothing that is
  zero.
* `Scalar.dividing`: the real numbers with any division. On denominators other than zero it has to
  be the right one, and then `step_dividing` and `improve_dividing` say that the solver does the
  same with it.
* `run_divides_by_nonzero`: the statement for iterations and for whole runs.
-/

open scoped RealInnerProductSpace

namespace Descent

/-- The real numbers, with `d` for their division. -/
@[reducible]
noncomputable def Scalar.dividing (d : ℝ → ℝ → ℝ) : Scalar ℝ :=
  { (inferInstance : Scalar ℝ) with toDiv := ⟨d⟩ }

namespace ConjugateGradient

variable {m : ConjugateGradient ℝ} {n : ℕ} {a : DenseMatrix ℝ} {b x : List ℝ} {s t : State ℝ}
  {log log' : Array (SolverEvent ℝ)}

/-- The direction vanishes where the residual does. -/
structure State.Linked (a : DenseMatrix ℝ) (b : List ℝ) (n : ℕ) (s : State ℝ) : Prop
    extends s.Tracks a b n where
  direction_eq : toEuclidean n s.residual = 0 → toEuclidean n s.direction = 0

namespace State

theorem linked_initial (ha : a.Square n) (hb : b.length = n) (hx : x.length = n)
    (history : Recorder (SolverRecord ℝ)) : (initial a b x history).Linked a b n :=
  ⟨tracks_initial ha hb hx history, fun h => h⟩

/-- A turn makes it so, whatever the direction was before. -/
theorem Tracks.linked_next (ha : a.Square n) (hb : b.length = n) (h : s.Tracks a b n) :
    (s.next a).Linked a b n where
  toTracks := h.next ha hb
  direction_eq h0 := by
    rw [h.direction_next ha hb, h0, inner_zero_left, zero_div, zero_smul, add_zero]

/-- Where the squared residual is zero there is no step. -/
theorem Linked.stuck_of_squared_eq_zero (ha : a.Square n) (h : s.Linked a b n)
    (h0 : s.residualSquared = 0) : s.Stuck a := by
  have hresidual : toEuclidean n s.residual = 0 := by
    rw [h.squared_eq_inner] at h0
    exact inner_self_eq_zero.mp h0
  have hcurvature : s.curvature a = 0 := by
    rw [h.fits.curvature_eq_inner ha, h.direction_eq hresidual, inner_zero_left]
  exact ⟨hcurvature.le, beq_iff_eq.mpr hcurvature⟩

theorem Linked.denominators_ne_zero (ha : a.Square n) (h : s.Linked a b n) (hfree : ¬s.Stuck a) :
    s.curvature a ≠ 0 ∧ s.residualSquared ≠ 0 :=
  ⟨fun h0 => hfree ⟨h0.le, beq_iff_eq.mpr h0⟩,
    fun h0 => hfree (h.stuck_of_squared_eq_zero ha h0)⟩

end State

theorem AtHead.linked (ha : a.Square n) (hb : b.length = n) (hs : s.Linked a b n)
    (h : AtHead m a s t) : t.Linked a b n := by
  induction h with
  | first => exact hs
  | next _ moved ih =>
    rw [eq_next_of_step_moved ha ih.fits moved]
    exact ih.toTracks.linked_next ha hb

/-! ## Other divisions -/

section Dividing

variable {d : ℝ → ℝ → ℝ} (hd : ∀ u v, v ≠ 0 → d u v = u / v)
include hd

theorem State.advanced_dividing (h : s.curvature a ≠ 0) :
    @State.advanced ℝ (.dividing d) a s = s.advanced a := by
  have hstep : d s.residualSquared (s.curvature a) = s.residualSquared / s.curvature a := hd _ _ h
  unfold State.advanced
  rw [← hstep]
  rfl

theorem State.next_dividing (h : s.curvature a ≠ 0 ∧ s.residualSquared ≠ 0) :
    @State.next ℝ (.dividing d) a s = s.next a := by
  have hturn : d (s.advanced a).residualSquared s.residualSquared =
      (s.advanced a).residualSquared / s.residualSquared := hd _ _ h.2
  unfold State.next
  rw [State.advanced_dividing hd h.1, ← hturn]
  rfl

variable (ha : a.Square n) (hb : b.length = n)
include ha

/-- An iteration does the same with the other division. -/
theorem step_dividing (hs : s.Linked a b n) (log : Array (SolverEvent ℝ)) :
    @step ℝ (.dividing d) m a s log = m.step a s log := by
  rw [step_run ha hs.fits log, @step_run ℝ (.dividing d) m a s n ha hs.fits log]
  unfold progress State.events
  by_cases hstuck : s.Stuck a
  · have hstuck' : @State.Stuck ℝ (.dividing d) a s := hstuck
    rw [if_pos hstuck, if_pos hstuck, if_pos hstuck', if_pos hstuck']
    rfl
  · have hstuck' : ¬@State.Stuck ℝ (.dividing d) a s := hstuck
    have hne := hs.denominators_ne_zero ha hstuck
    rw [if_neg hstuck, if_neg hstuck, if_neg hstuck', if_neg hstuck',
      State.advanced_dividing hd hne.1, State.next_dividing hd hne]
    rfl

include hb

theorem iterate_dividing (budget : ℕ) (hs : s.Linked a b n) (log : Array (SolverEvent ℝ)) :
    @iterate ℝ (.dividing d) m a budget s log = m.iterate a budget s log := by
  induction budget generalizing s log with
  | zero => rfl
  | succ budget ih =>
    have hstep := step_run (m := m) ha hs.fits log
    unfold iterate
    rw [bind_of_ok hstep, bind_of_ok ((step_dividing hd ha hs log).trans hstep)]
    cases hprogress : m.progress a s with
    | stuck => rfl
    | solved t => rfl
    | moved t =>
      rw [hprogress] at hstep
      rw [eq_next_of_step_moved ha hs.fits hstep]
      exact ih (hs.toTracks.linked_next ha hb) _

theorem improve_dividing (budget : ℕ) (hs : s.Linked a b n) (log : Array (SolverEvent ℝ)) :
    @improve ℝ (.dividing d) m a budget s log = m.improve a budget s log := by
  unfold improve
  by_cases hconv : m.Converged s
  · have hconv' : @Converged ℝ (.dividing d) m s := hconv
    rw [if_pos hconv, if_pos hconv']
  · have hconv' : ¬@Converged ℝ (.dividing d) m s := hconv
    rw [if_neg hconv, if_neg hconv']
    exact iterate_dividing hd ha hb budget hs log

theorem run_dividing (hx : x.length = n) (history : Recorder (SolverRecord ℝ))
    (log : Array (SolverEvent ℝ)) :
    @run ℝ (.dividing d) m a b x history log = m.run a b x history log := by
  have hs := State.linked_initial ha hb hx history
  have himprove := improve_dividing (m := m) hd ha hb (m.limit.getD n) hs log
  obtain ⟨steps, s', hrun, -⟩ := improve_run (m := m) ha (m.limit.getD n) hs.fits log
  unfold run
  rw [bind_of_ok (liftM_of_ok (checkShapes_of_fit ha hb hx)),
    bind_of_ok (liftM_of_ok (checkShapes_of_fit ha hb hx)),
    bind_of_ok (start_run ha hb hx history log),
    bind_of_ok (@start_run ℝ (.dividing d) a n b x ha hb hx history log), bind_of_ok hrun]
  exact bind_of_ok (himprove.trans hrun)

end Dividing

/-! ## Whole runs -/

/-- Whatever the tolerance and the limit are, the solver never divides by zero. At the head of every
iteration: if the iteration is not stuck, and so divides by the curvature of the direction, then
this is not zero, and neither is the square of the residual, by which it divides where it turns. So
nothing depends on what a division by zero would give: with every division that is right for all
other denominators the run is the same. -/
theorem run_divides_by_nonzero (m : ConjugateGradient ℝ) (ha : a.Square n) (hb : b.length = n)
    (hx : x.length = n) (history : Recorder (SolverRecord ℝ)) (log : Array (SolverEvent ℝ)) :
    (∃ s, start a b x history log = .ok s log ∧ ∀ t, AtHead m a s t →
      ∀ before progress after, m.step a t before = .ok progress after → progress ≠ .stuck →
        Space.dot t.direction (a.apply t.direction) ≠ 0 ∧ t.residualSquared ≠ 0) ∧
    ∀ d : ℝ → ℝ → ℝ, (∀ u v, v ≠ 0 → d u v = u / v) →
      @run ℝ (.dividing d) m a b x history log = m.run a b x history log := by
  have hs := State.linked_initial ha hb hx history
  refine ⟨⟨_, start_run ha hb hx history log, fun t ht before progress after hstep hfree => ?_⟩,
    fun d hd => run_dividing hd ha hb hx history log⟩
  have hlinked := ht.linked ha hb hs
  refine hlinked.denominators_ne_zero ha fun hstuck => hfree ?_
  rw [step_run ha hlinked.fits before] at hstep
  cases hstep
  exact if_pos hstuck

/-- The matrix with the single entry `1`. -/
def single : DenseMatrix ℝ where
  columnCount := 1
  rows := [[1]]
  length_of_mem := by simp

/-- No residual is small enough for this solver. -/
noncomputable def insatiable : ConjugateGradient ℝ where
  tolerance := -1
  limit := some 5

/-- The first iteration solves `1 x = 1`. The solver goes on with a residual of zero, and it is
stuck then. -/
theorem run_divides_by_nonzero_after_solution :
    ∃ s u, start single [1] [0] none #[] = .ok s #[] ∧ AtHead insatiable single s u ∧
      u.residualSquared = 0 ∧
      (∀ before progress after, insatiable.step single u before = .ok progress after →
        progress = .stuck) ∧
      @run ℝ (.dividing fun v w => if w = 0 then 1 else v / w) insatiable single [1] [0] none #[] =
        insatiable.run single [1] [0] none #[] := by
  have hsquare : single.Square 1 := ⟨rfl, rfl⟩
  obtain ⟨⟨s, hstart, hheads⟩, hdividing⟩ :=
    run_divides_by_nonzero insatiable hsquare (b := [1]) (x := [0]) rfl rfl none #[]
  obtain rfl : State.initial single [1] [0] none = s := by
    rw [start_run hsquare rfl rfl] at hstart
    cases hstart
    rfl
  set s := State.initial single [1] [0] none
  have hcurvature : s.curvature single = 1 := by
    simp [s, State.curvature, State.initial, single, DenseMatrix.apply, Space.dot, Space.ray,
      Coordinates.dot, Coordinates.ray]
  have hfree : ¬s.Stuck single := by
    rintro ⟨hle, -⟩
    rw [hcurvature] at hle
    exact absurd hle (by norm_num)
  have hopen : ¬insatiable.Converged (s.advanced single) := by
    intro hsmall
    exact absurd ((Real.sqrt_nonneg _).trans hsmall) (by norm_num [insatiable])
  have hmoves : insatiable.progress single s = .moved (s.next single) := by
    rw [progress, if_neg hfree, if_neg hopen]
  have hhead : AtHead insatiable single s (s.next single) :=
    .next .first (hmoves ▸ step_run hsquare (State.initial_fits hsquare rfl rfl none) #[])
  have hsolved : (s.next single).residualSquared = 0 := by
    simp [s, State.next, State.advanced, State.curvature, State.initial, single, DenseMatrix.apply,
      Space.normSquared, Space.dot, Space.ray, Coordinates.dot, Coordinates.ray]
  refine ⟨s, s.next single, hstart, hhead, hsolved, fun before progress after hstep => ?_,
    hdividing _ fun v w hw => if_neg hw⟩
  by_contra hfree'
  exact (hheads _ hhead before progress after hstep hfree').2 hsolved

end ConjugateGradient

end Descent

import Descent.Proofs.Minimizer.IterationBound
import Descent.Proofs.Minimizer.Orbit

/-!
# Descent at a fixed rate on smooth functions

In exact arithmetic, for a function that lies below a parabola of curvature `L` through each of its
points. A rate below `2 / L` then goes down at every step.

* `ScalarField.Smooth`: the parabolas.
* `ScalarField.Smooth.value_ray_le`: how much a step against the gradient gains.
* `FixedRate.nthCall_on`: the points of the orbit are points of the function.
* `FixedRate.value_succ_le`, `FixedRate.value_le_of_long`: what a step of the orbit gains, and what
  all steps gain together as long as the gradient is long.
* `FixedRate.run_converges`: a run goes down from record to record, and converges if its iterations
  can gain more than the function has room for.
-/

namespace Descent

open Space (dimension dot norm ray)
open scoped RealInnerProductSpace

variable {σ V : Type} [Space V ℝ]

/-- At vectors of dimension `n` the function lies below the parabolas that touch it and have the
curvature `L`. -/
structure ScalarField.Smooth (F : ScalarField V ℝ) (n : ℕ) (L : ℝ) : Prop where
  value_le : ∀ x y, dimension x = n → dimension y = n →
    F.value y ≤ F.value x + dot (F.gradient x) (ray y x (-1)) + L / 2 * norm (ray y x (-1)) ^ 2

variable {F : ScalarField V ℝ} {f : Objective σ V ℝ} {n : ℕ} {L : ℝ} {x x₀ : V}

omit [Space V ℝ] in
theorem Objective.Computes.point_call (hf : f.Computes F.value F.gradient) (st : σ) (x buffer : V) :
    (f.call st x buffer).1.point = F.point x := by
  have hanswer := hf x buffer st
  unfold Objective.call
  rcases hrun : (f x buffer).run st with ⟨⟨value, gradient⟩, st'⟩
  rw [hrun] at hanswer
  obtain ⟨rfl, rfl⟩ := Prod.mk.inj hanswer
  rfl

variable [Coordinatized V ℝ] [ExactSpace V]

open ExactSpace in
/-- A step against the gradient goes down where the rate `h` is less than `2 / L`. -/
theorem ScalarField.Smooth.value_ray_le (hsmooth : F.Smooth n L) (hx : dimension x = n)
    (hg : dimension (F.gradient x) = n) (h : ℝ) :
    F.value (ray x (F.gradient x) (-h)) ≤
      F.value x - h * (1 - L * h / 2) * norm (F.gradient x) ^ 2 := by
  have hy : dimension (ray x (F.gradient x) (-h)) = n :=
    (SizedSpace.dimension_ray (hx.trans hg.symm) _).trans hx
  have hd : dimension (ray (ray x (F.gradient x) (-h)) x (-1)) = n :=
    (SizedSpace.dimension_ray (hy.trans hx.symm) _).trans hy
  set g := euclidean n (F.gradient x)
  have hmove : euclidean n (ray (ray x (F.gradient x) (-h)) x (-1)) = -h • g := by
    rw [euclidean_ray hy hx, euclidean_ray hx hg, neg_one_smul, ← sub_eq_add_neg,
      add_sub_cancel_left]
  have hslope : dot (F.gradient x) (ray (ray x (F.gradient x) (-h)) x (-1)) = -h * ‖g‖ ^ 2 := by
    rw [dot_eq_inner_euclidean hg hd, hmove, inner_smul_right, real_inner_self_eq_norm_sq]
  have hlength : norm (ray (ray x (F.gradient x) (-h)) x (-1)) ^ 2 = h ^ 2 * ‖g‖ ^ 2 := by
    rw [norm_eq_norm_euclidean hd, hmove, norm_smul, mul_pow, Real.norm_eq_abs, sq_abs, neg_sq]
  calc F.value (ray x (F.gradient x) (-h))
      ≤ F.value x + dot (F.gradient x) (ray (ray x (F.gradient x) (-h)) x (-1)) +
          L / 2 * norm (ray (ray x (F.gradient x) (-h)) x (-1)) ^ 2 :=
        hsmooth.value_le _ _ hx hy
    _ = F.value x - h * (1 - L * h / 2) * ‖g‖ ^ 2 := by rw [hslope, hlength]; ring
    _ = F.value x - h * (1 - L * h / 2) * norm (F.gradient x) ^ 2 := by
        rw [norm_eq_norm_euclidean hg]

namespace FixedRate

variable {m : FixedRate ℝ} (st : σ) {k : ℕ} {t : ℝ}

/-! ## The orbit -/

section Orbit

variable (hf : f.Computes F.value F.gradient) (hx₀ : dimension x₀ = n)
  (hkeep : ∀ x, dimension x = n → dimension (F.gradient x) = n)
include hf hx₀ hkeep

theorem nthCall_on (k : ℕ) : (m.nthCall f x₀ st k).point.On F n := by
  induction k with
  | zero => exact ⟨hf.point_call st x₀ x₀, hx₀⟩
  | succ k ih =>
    have hx : dimension (m.nthCall f x₀ st k).x = n := ih.dimension_x
    have hg : dimension (m.nthCall f x₀ st k).gradient = n := by
      rw [show (m.nthCall f x₀ st k).gradient = F.gradient (m.nthCall f x₀ st k).x from
        congrArg Point.gradient ih.eq]
      exact hkeep _ hx
    exact ⟨hf.point_call _ _ _, (SizedSpace.dimension_ray (hx.trans hg.symm) _).trans hx⟩

variable (hsmooth : F.Smooth n L)
include hsmooth

theorem value_succ_le (k : ℕ) :
    (m.nthCall f x₀ st (k + 1)).value ≤ (m.nthCall f x₀ st k).value -
      m.rate * (1 - L * m.rate / 2) * norm (m.nthCall f x₀ st k).gradient ^ 2 := by
  have hon := nthCall_on (m := m) st hf hx₀ hkeep k
  have hnext := nthCall_on (m := m) st hf hx₀ hkeep (k + 1)
  have hvalue : (m.nthCall f x₀ st k).value = F.value (m.nthCall f x₀ st k).x :=
    congrArg Point.value hon.eq
  have hgradient : (m.nthCall f x₀ st k).gradient = F.gradient (m.nthCall f x₀ st k).x :=
    congrArg Point.gradient hon.eq
  have hvalue' : (m.nthCall f x₀ st (k + 1)).value = F.value
      (ray (m.nthCall f x₀ st k).x (m.nthCall f x₀ st k).gradient (-m.rate)) :=
    congrArg Point.value hnext.eq
  rw [hvalue', hvalue, hgradient]
  exact hsmooth.value_ray_le hon.dimension_x (hkeep _ hon.dimension_x) m.rate

/-- As long as no gradient is shorter than `t`, every step gains as much as one of length `t`. -/
theorem value_le_of_long (hgain : 0 ≤ m.rate * (1 - L * m.rate / 2)) (ht : 0 ≤ t)
    (hlong : ∀ j < k, t ≤ norm (m.nthCall f x₀ st j).gradient) :
    (m.nthCall f x₀ st k).value ≤
      F.value x₀ - k * (m.rate * (1 - L * m.rate / 2) * t ^ 2) := by
  induction k with
  | zero =>
    have hvalue : (m.nthCall f x₀ st 0).value = F.value x₀ :=
      congrArg Point.value (hf.point_call st x₀ x₀)
    rw [hvalue, Nat.cast_zero, zero_mul, sub_zero]
  | succ k ih =>
    have hbefore := ih fun j hj => hlong j (hj.trans k.lt_succ_self)
    have hstep := value_succ_le (m := m) st hf hx₀ hkeep hsmooth k
    have hsquare : m.rate * (1 - L * m.rate / 2) * t ^ 2 ≤
        m.rate * (1 - L * m.rate / 2) * norm (m.nthCall f x₀ st k).gradient ^ 2 := by
      have := hlong k k.lt_succ_self
      gcongr
    rw [Nat.cast_succ]
    linarith

end Orbit

/-! ## Whole runs -/

variable {μ : ℝ}

/-- A run on a smooth function that stays above `μ`, at a rate below `2 / L`. It returns, and
records points of the function, the start first and one for every iteration. From each of them to
the next one it goes down, by `h (1 - L h / 2)` times the square of the gradient or more, where `h`
is the rate. If so much for each of its iterations, with the tolerance in the place of the gradient,
is more than the function has room for, then the run converges. -/
theorem run_converges (m : FixedRate ℝ) (hf : f.Computes F.value F.gradient)
    (hkeep : ∀ x, dimension x = dimension x₀ → dimension (F.gradient x) = dimension x₀)
    (hsmooth : F.Smooth (dimension x₀) L) (hbound : ∀ x, dimension x = dimension x₀ → μ ≤ F.value x)
    (hrate : 0 < m.rate) (hshort : L * m.rate < 2) (htol : 0 < m.stopping.tolerance)
    (history : History V ℝ) (session : Session σ V ℝ) :
    ∃ (minimum : Minimum V ℝ) (records : List (Record V ℝ)) (session' : Session σ V ℝ),
      m.run f x₀ history session = .ok (minimum, history.recordAll records) session' ∧
      records.length = minimum.iterations + 1 ∧
      records.head?.map (·.point) = some (F.point x₀) ∧
      (∀ r ∈ records, r.point = F.point r.point.x) ∧
      records.IsChain (fun r r' : Record V ℝ => r'.point.value ≤
        r.point.value - m.rate * (1 - L * m.rate / 2) * norm r.point.gradient ^ 2) ∧
      records.Pairwise (fun r r' : Record V ℝ => r'.point.value ≤ r.point.value) ∧
      (F.value x₀ - μ < m.stopping.limit.getD (100 * dimension x₀) * m.rate *
          (1 - L * m.rate / 2) * m.stopping.tolerance ^ 2 →
        minimum.converged = true) := by
  have hgain : 0 ≤ m.rate * (1 - L * m.rate / 2) := mul_nonneg hrate.le (by linarith)
  obtain ⟨minimum, history', session', hrun⟩ :=
    m.run_total (hf.answers hkeep) rfl trivial history session
  have hunrolls := run_unrolls hrun
  have hon := nthCall_on (m := m) session.state hf rfl hkeep
  have hsucc := value_succ_le (m := m) session.state hf rfl hkeep hsmooth
  have hdown : Antitone fun k => (m.nthCall f x₀ session.state k).value :=
    antitone_nat_of_succ_le fun k =>
      (hsucc k).trans (sub_le_self _ (mul_nonneg hgain (sq_nonneg _)))
  rw [hunrolls.history_eq] at hrun
  refine ⟨minimum, _, session', hrun, by simp, ?_, ?_, ?_, ?_, fun hroom => ?_⟩
  · rw [List.range_succ_eq_map, List.map_cons, List.head?_cons, Option.map_some]
    exact congrArg some (hf.point_call _ _ _)
  · intro r hr
    obtain ⟨k, -, rfl⟩ := List.mem_map.mp hr
    exact (hon k).eq
  · rw [List.isChain_map, List.isChain_range_succ]
    exact fun k _ => hsucc k
  · rw [List.pairwise_map]
    exact List.pairwise_lt_range.imp fun hlt => hdown hlt.le
  · by_contra hopen
    have hspent := hunrolls.spent (Bool.eq_false_iff.mpr hopen)
    have hlong : ∀ j < minimum.iterations,
        m.stopping.tolerance ≤ norm (m.nthCall f x₀ session.state j).gradient :=
      fun j hj => (not_le.mp (hunrolls.large j hj)).le
    have hlow := value_le_of_long session.state hf rfl hkeep hsmooth hgain htol.le hlong
    have hhigh : μ ≤ (m.nthCall f x₀ session.state minimum.iterations).value :=
      (hbound _ (hon _).dimension_x).trans_eq (congrArg Point.value (hon _).eq).symm
    rw [hspent] at hlow hhigh
    change F.value x₀ - μ < (m.stopping.budget 100 x₀ : ℝ) * m.rate * _ * _ at hroom
    linarith

/-- Steps of a quarter of the gradient, until it is not longer than a half. -/
noncomputable def quarterSteps : FixedRate ℝ where
  rate := 0.25
  stopping := { tolerance := 0.5, limit := some 22 }

theorem squareField_smooth : squareField.Smooth 1 2 := by
  refine ⟨fun x y _ _ => ?_⟩
  show y * y ≤ x * x + (x + x) * (y + x * -1) + 2 / 2 * |y + x * -1| ^ 2
  rw [sq_abs]
  linarith

/-- From the height `1` in the square the twenty-two steps are enough. -/
theorem run_converges_in_square :
    ∃ (minimum : Minimum ℝ ℝ) (records : List (Record ℝ ℝ)) (session' : Session ℕ ℝ ℝ),
      quarterSteps.run square 1 (some #[]) { state := 0 } =
        .ok (minimum, Recorder.recordAll (some #[]) records) session' ∧
      records.length = minimum.iterations + 1 ∧ minimum.converged = true ∧
      records.IsChain fun r r' : Record ℝ ℝ =>
        r'.point.value ≤ r.point.value - 3 / 16 * Space.norm r.point.gradient ^ 2 := by
  have hbound : ∀ x : ℝ, dimension x = dimension (1 : ℝ) → 0 ≤ squareField.value x :=
    fun x _ => mul_self_nonneg x
  have hrate : 0 < quarterSteps.rate := by norm_num [quarterSteps]
  have hshort : 2 * quarterSteps.rate < 2 := by norm_num [quarterSteps]
  have htol : 0 < quarterSteps.stopping.tolerance := by norm_num [quarterSteps]
  obtain ⟨minimum, records, session', hrun, hlength, -, -, hchain, -, hconverges⟩ :=
    run_converges quarterSteps square_computes (fun _ _ => rfl) squareField_smooth hbound hrate
      hshort htol (some #[]) { state := 0 }
  have hgain : quarterSteps.rate * (1 - 2 * quarterSteps.rate / 2) = 3 / 16 := by
    norm_num [quarterSteps]
  rw [hgain] at hchain
  refine ⟨minimum, records, session', hrun, hlength, hconverges ?_, hchain⟩
  norm_num [quarterSteps, squareField]

end FixedRate

end Descent

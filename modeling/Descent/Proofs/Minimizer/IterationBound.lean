import Descent.Proofs.Minimizer.Decrease

/-!
# How often steepest descent can accept a step

In exact arithmetic, for a function that is bounded below and whose gradient is Lipschitz.

* `sub_mul_norm_le`: gradients between which the slope has become flat are far apart.
* `Point.On`: a point of a function. A journey that begins at such a point stays among them
  (`Journey.points_on`).
* `SteepestDescent.step_ge`: so an accepted step is long.
* `SteepestDescent.arrival_le_of_accepted`: hence it goes down by a fixed amount.
* `SteepestDescent.accepted_count_le`: a run cannot accept more steps than the function has room
  for. Searches that end in any other way do not count, but do not go up either.
-/

namespace Descent

open Space (dimension dot norm ray scale)
open scoped RealInnerProductSpace

/-- A vector `w` whose product with `v` is small, compared to that of `v` with itself, is far from
`v`. -/
theorem sub_mul_norm_le {E : Type*} [NormedAddCommGroup E] [InnerProductSpace ℝ E] {v w : E}
    {κ : ℝ} (hflat : |⟪w, v⟫| ≤ κ * ⟪v, v⟫) : (1 - κ) * ‖v‖ ≤ ‖v - w‖ := by
  by_cases hv : v = 0
  · simp [hv]
  have hpos : 0 < ‖v‖ := norm_pos_iff.mpr hv
  have hbound : (1 - κ) * ‖v‖ * ‖v‖ ≤ ‖v - w‖ * ‖v‖ := by
    calc (1 - κ) * ‖v‖ * ‖v‖ = ⟪v, v⟫ - κ * ⟪v, v⟫ := by
          rw [real_inner_self_eq_norm_mul_norm]
          ring
      _ ≤ ⟪v, v⟫ - ⟪w, v⟫ := by linarith [le_abs_self ⟪w, v⟫]
      _ = ⟪v - w, v⟫ := (inner_sub_left v w v).symm
      _ ≤ ‖v - w‖ * ‖v‖ := real_inner_le_norm _ _
  exact le_of_mul_le_mul_right hbound hpos

variable {σ V : Type} [Space V ℝ] {F : ScalarField V ℝ} {f : Objective σ V ℝ}
  {rule : StrongWolfe ℝ} {n : ℕ}

/-! ## Points of a function -/

/-- The point is one of the function, of dimension `n`. -/
structure Point.On (F : ScalarField V ℝ) (n : ℕ) (p : Point V ℝ) : Prop where
  eq : p = F.point p.x
  dimension_x : dimension p.x = n

section Points

variable [SizedSpace V ℝ]

theorem SearchCall.Made.arrival_on {c : SearchCall σ V ℝ} (h : c.Made rule f)
    (hf : f.Computes F.value F.gradient) (hc : c.current.On F n) : c.arrival.On F n := by
  by_cases hs : c.Succeeded
  · obtain ⟨q, hq, -⟩ := h.accepted hs
    rw [arrival_of_succeeded hs, hq.next_eq]
    exact ⟨h.calls.calls.points hf q.evaluation hq.mem, hq.along.dimension_eq.trans hc.dimension_x⟩
  · rw [arrival_of_failed (eq_true_of_ne_false hs)]
    exact hc

theorem Journey.points_on {p p' : Point V ℝ} {session session' : Session σ V ℝ}
    {cs : List (SearchCall σ V ℝ)} (h : Journey rule f p session cs p' session')
    (hf : f.Computes F.value F.gradient) (hp : p.On F n) :
    p'.On F n ∧ ∀ c ∈ cs, c.current.On F n := by
  induction h with
  | nil => simpa using hp
  | cons made _ ih =>
    obtain ⟨hlast, hrest⟩ := ih (made.arrival_on hf hp)
    exact ⟨hlast, List.forall_mem_cons.mpr ⟨hp, hrest⟩⟩

end Points

/-- If no search goes up, and each one of a kind goes down by `δ` at least, then a journey goes down
`δ` times as often as there are searches of that kind. -/
theorem Journey.countP_le {p p' : Point V ℝ} {session session' : Session σ V ℝ}
    {cs : List (SearchCall σ V ℝ)} {kind : SearchCall σ V ℝ → Prop} [DecidablePred kind] {δ : ℝ}
    (h : Journey rule f p session cs p' session')
    (hdown : ∀ c ∈ cs, c.arrival.value ≤ c.current.value)
    (hkind : ∀ c ∈ cs, kind c → c.arrival.value ≤ c.current.value - δ) :
    p'.value ≤ p.value - cs.countP kind * δ := by
  have hgain : ∀ c ∈ cs, c.arrival.value ≤ c.current.value - if kind c then δ else 0 := by
    intro c hc
    by_cases hk : kind c
    · rw [if_pos hk]
      exact hkind c hc hk
    · rw [if_neg hk, sub_zero]
      exact hdown c hc
  have hsum := h.value_le hgain
  rw [List.sum_map_ite] at hsum
  simpa [List.countP_eq_length_filter] using hsum

/-- The gradient changes at most `L` times as much as the point, among points of dimension `n`. -/
def ScalarField.GradientLipschitz (F : ScalarField V ℝ) (n : ℕ) (L : ℝ) : Prop :=
  ∀ x y, dimension x = n → dimension y = n →
    norm (ray (F.gradient x) (F.gradient y) (-1)) ≤ L * norm (ray x y (-1))

namespace SteepestDescent

variable [Coordinatized V ℝ] [ExactSpace V] {L : ℝ}

section AcceptedStep

variable {c : SearchCall σ V ℝ} (hf : f.Computes F.value F.gradient)
  (hkeep : ∀ x, dimension x = n → dimension (F.gradient x) = n)
  (hlipschitz : F.GradientLipschitz n L) (h : c.Made rule f) (hc : c.current.On F n)
  (hfirst : 0 < c.first) (hdirection : c.direction = scale c.current.gradient (-1))
  (haccepted : c.Accepted)
include hf hkeep hlipschitz h hc hfirst hdirection haccepted

open ExactSpace in
/-- Along an accepted step the gradient changes by as much as its slope must lose. -/
theorem step_ge (hgradient : 0 < norm c.current.gradient) :
    1 - rule.c₂ ≤ L * c.found.step := by
  obtain ⟨q, hq, hflat⟩ := h.flat haccepted
  have hnonneg := h.step_nonneg hfirst
  rw [hq.step_eq] at hnonneg ⊢
  have hpoint := h.calls.calls.points hf q.evaluation hq.mem
  have hnew : q.evaluation.gradient = F.gradient q.evaluation.x := congrArg Point.gradient hpoint
  have hold : c.current.gradient = F.gradient c.current.x := congrArg Point.gradient hc.eq
  have hx := hc.dimension_x
  have hy : dimension q.evaluation.x = n := hq.along.dimension_eq.trans hx
  have hg : dimension c.current.gradient = n := hold ▸ hkeep _ hx
  have hg' : dimension q.evaluation.gradient = n := hnew ▸ hkeep _ hy
  have hd : dimension c.direction = n :=
    hdirection ▸ (SizedSpace.dimension_scale _ _).trans hg
  -- The old and the new gradient, as vectors of Euclidean space. The direction is `-v`.
  set v := euclidean n c.current.gradient
  set w := euclidean n q.evaluation.gradient
  have hflat' : |⟪w, v⟫| ≤ rule.c₂ * ⟪v, v⟫ := by
    have hslope := flatEnough_iff.mp hflat
    rw [hq.along.slope_eq, Point.slice, hdirection, dot_scale (hg'.trans hg.symm),
      dot_scale rfl, dot_eq_inner_euclidean hg' hg, dot_eq_inner_euclidean hg hg] at hslope
    simpa using hslope
  have hmove : norm (ray c.current.x q.evaluation.x (-1)) = q.trial.step * ‖v‖ := by
    rw [norm_sub hx hy, hq.along.x_eq, euclidean_ray hx hd, hdirection, euclidean_scale hg,
      neg_one_smul, smul_neg, ← sub_eq_add_neg, sub_sub_cancel, norm_smul,
      Real.norm_of_nonneg hnonneg]
  have hpos : 0 < ‖v‖ := norm_eq_norm_euclidean hg ▸ hgradient
  have hbound : (1 - rule.c₂) * ‖v‖ ≤ L * q.trial.step * ‖v‖ := by
    calc (1 - rule.c₂) * ‖v‖ ≤ ‖v - w‖ := sub_mul_norm_le hflat'
      _ = norm (ray (F.gradient c.current.x) (F.gradient q.evaluation.x) (-1)) := by
          rw [← hold, ← hnew, norm_sub hg hg']
      _ ≤ L * norm (ray c.current.x q.evaluation.x (-1)) := hlipschitz _ _ hx hy
      _ = L * q.trial.step * ‖v‖ := by rw [hmove, mul_assoc]
  exact le_of_mul_le_mul_right hbound hpos

/-- An accepted step from a gradient that is not shorter than `t` goes down by a fixed amount. -/
theorem arrival_le_of_accepted {t : ℝ} (hL : 0 < L) (hc₁ : 0 ≤ rule.c₁) (hc₂ : rule.c₂ ≤ 1)
    (ht : 0 < t) (hlong : t ≤ norm c.current.gradient) :
    c.arrival.value ≤ c.current.value - rule.c₁ * ((1 - rule.c₂) / L * t ^ 2) := by
  have hstep : (1 - rule.c₂) / L ≤ c.found.step :=
    (div_le_iff₀' hL).mpr (step_ge hf hkeep hlipschitz h hc hfirst hdirection haccepted
      (ht.trans_le hlong))
  have hsquare : t ^ 2 ≤ dot c.current.gradient c.current.gradient := by
    rw [ExactSpace.norm_eq_sqrt] at hlong
    exact Real.le_sqrt' ht |>.mp hlong
  have hproduct : (1 - rule.c₂) / L * t ^ 2 ≤
      c.found.step * dot c.current.gradient c.current.gradient := by
    have : 0 ≤ (1 - rule.c₂) / L := div_nonneg (sub_nonneg.mpr hc₂) hL.le
    gcongr
    exact this.trans hstep
  calc c.arrival.value
      ≤ c.current.value -
          rule.c₁ * (c.found.step * dot c.current.gradient c.current.gradient) :=
        arrival_le h hdirection
    _ ≤ c.current.value - rule.c₁ * ((1 - rule.c₂) / L * t ^ 2) := by gcongr

end AcceptedStep

/-! ## Whole runs -/

variable {m : SteepestDescent ℝ} {x₀ : V} {μ : ℝ}

/-- A run that begins with a positive step returns. Let the function stay above `μ`. Then among the
iterations of the run, whatever its budget is, those whose step was accepted by both conditions are
at most `L (F x₀ - μ) / (c₁ (1 - c₂) t²)` for the tolerance `t`. -/
theorem accepted_count_le (hf : f.Computes F.value F.gradient)
    (hkeep : ∀ x, dimension x = dimension x₀ → dimension (F.gradient x) = dimension x₀)
    (hL : 0 < L) (hlipschitz : F.GradientLipschitz (dimension x₀) L)
    (hbound : ∀ x, dimension x = dimension x₀ → μ ≤ F.value x) (hfirst : 0 < m.firstStep)
    (htol : 0 < m.stopping.tolerance) (hc₁ : 0 < m.lineSearch.c₁) (hc₂ : m.lineSearch.c₂ < 1)
    (history : History V ℝ) (session : Session σ V ℝ) :
    ∃ cs s session₁ session₂ session',
      evaluateFirst f x₀ session = .ok (F.point x₀) session₁ ∧
      Iterates m f (m.stopping.budget 100 x₀) (.initial m x₀ (F.point x₀) history) session₁ cs s
        session₂ ∧
      m.run f x₀ history session =
        .ok ({ point := s.current, iterations := cs.length,
               converged := m.stopping.Converged s.current },
             history.recordAll (cs.map record)) session' ∧
      (cs.countP (·.Accepted) : ℝ) ≤ L * (F.value x₀ - μ) /
        (m.lineSearch.c₁ * (1 - m.lineSearch.c₂) * m.stopping.tolerance ^ 2) := by
  obtain ⟨p, session₁, cs, s, session₂, session', hstart, hcs, hrun⟩ :=
    m.run_iterates (hf.answers hkeep) rfl trivial history session
  obtain rfl : p = F.point x₀ := evaluateFirst_point hf hstart
  have hjourney : Journey m.lineSearch f (F.point x₀) session₁ cs s.current session₂ :=
    hcs.journey
  have hfirsts := hcs.first_pos hfirst
  obtain ⟨hlast, hpoints⟩ := hjourney.points_on hf ⟨rfl, rfl⟩
  have hdown : ∀ c ∈ cs, c.arrival.value ≤ c.current.value := by
    intro c hc
    have hmade := hjourney.made c hc
    have hgain := mul_nonneg (hmade.step_nonneg (hfirsts c hc))
      (ExactSpace.dot_self_nonneg c.current.gradient)
    exact (arrival_le hmade (hcs.against c hc).1).trans
      (sub_le_self _ (mul_nonneg hc₁.le hgain))
  have haccepted : ∀ c ∈ cs, c.Accepted → c.arrival.value ≤ c.current.value -
      m.lineSearch.c₁ * ((1 - m.lineSearch.c₂) / L * m.stopping.tolerance ^ 2) := by
    intro c hc ha
    obtain ⟨hdirection, hlarge⟩ := hcs.against c hc
    exact arrival_le_of_accepted hf hkeep hlipschitz (hjourney.made c hc) (hpoints c hc)
      (hfirsts c hc) hdirection ha hL hc₁.le hc₂.le htol (not_le.mp hlarge).le
  have hsum := hjourney.countP_le hdown haccepted
  have hroom : μ ≤ s.current.value := by
    rw [hlast.eq]
    exact hbound _ hlast.dimension_x
  refine ⟨cs, s, session₁, session₂, _, hstart, hcs, hrun, ?_⟩
  have hc₂' : 0 < 1 - m.lineSearch.c₂ := sub_pos.mpr hc₂
  rw [le_div_iff₀ (by positivity)]
  have hgain : cs.countP (·.Accepted) *
      (m.lineSearch.c₁ * ((1 - m.lineSearch.c₂) / L * m.stopping.tolerance ^ 2)) ≤
      F.value x₀ - μ := le_sub_comm.mp (hroom.trans hsum)
  calc (cs.countP (·.Accepted) : ℝ) *
        (m.lineSearch.c₁ * (1 - m.lineSearch.c₂) * m.stopping.tolerance ^ 2)
      = L * (cs.countP (·.Accepted) *
          (m.lineSearch.c₁ * ((1 - m.lineSearch.c₂) / L * m.stopping.tolerance ^ 2))) := by
        field_simp
    _ ≤ L * (F.value x₀ - μ) := by gcongr

/-- A thousand iterations at most, with the constants and budgets of `coarse`, until the gradient is
not longer than one. -/
noncomputable def thousandSearches : SteepestDescent ℝ where
  lineSearch := coarse
  firstStep := 1
  stopping := { tolerance := 1, limit := some 1000 }

theorem squareField_gradientLipschitz : squareField.GradientLipschitz 1 2 := by
  intro x y _ _
  show |x + x + (y + y) * -1| ≤ 2 * |x + y * -1|
  rw [show x + x + (y + y) * -1 = 2 * (x + y * -1) by ring, abs_mul, abs_two]

/-- From the height `1` in the square not more than forty steps are accepted. -/
theorem accepted_count_le_in_square :
    ∃ cs s session₁ session₂ session',
      evaluateFirst square 1 { state := 0 } = .ok (squareField.point 1) session₁ ∧
      Iterates thousandSearches square 1000
        (.initial thousandSearches 1 (squareField.point 1) none) session₁ cs s session₂ ∧
      thousandSearches.run square 1 none { state := 0 } =
        .ok ({ point := s.current, iterations := cs.length,
               converged := thousandSearches.stopping.Converged s.current }, none) session' ∧
      cs.countP (·.Accepted) ≤ 40 := by
  have hbound : ∀ x : ℝ, dimension x = dimension (1 : ℝ) → 0 ≤ squareField.value x :=
    fun x _ => mul_self_nonneg x
  have hc₁ : 0 < thousandSearches.lineSearch.c₁ := by norm_num [thousandSearches, coarse]
  have hc₂ : thousandSearches.lineSearch.c₂ < 1 := by norm_num [thousandSearches, coarse]
  obtain ⟨cs, s, session₁, session₂, session', hstart, hcs, hrun, hcount⟩ :=
    accepted_count_le (m := thousandSearches) square_computes (fun _ _ => rfl) two_pos
      squareField_gradientLipschitz hbound one_pos one_pos hc₁ hc₂ none { state := 0 }
  refine ⟨cs, s, session₁, session₂, session', hstart, hcs, hrun, ?_⟩
  norm_num [thousandSearches, coarse, squareField] at hcount
  exact_mod_cast hcount

end SteepestDescent

end Descent

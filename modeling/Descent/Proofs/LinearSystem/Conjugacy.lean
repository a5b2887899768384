import Mathlib.Analysis.InnerProductSpace.Symmetric

/-!
# Conjugate directions

The recurrence of the conjugate gradient method in a real inner product space, with a symmetric
operator `T` that need not be definite.

* `ConjugateSteps T r p`: the residuals `r` and directions `p` follow the recurrence.
* `ConjugateSteps.conjugate_of_le`: as long as no direction has a curvature of zero and no residual
  vanishes, each residual is orthogonal to all earlier residuals and directions, and each direction
  conjugate to all earlier ones.
* `ConjugateSteps.lt_finrank`, `ConjugateSteps.le_finrank`: so there are no more residuals, and no
  more steps, than dimensions.
-/

open scoped RealInnerProductSpace

namespace Descent

variable {E : Type*} [NormedAddCommGroup E] [InnerProductSpace ℝ E]

/-- The residuals `r` and the directions `p` follow the recurrence of the conjugate gradient method.
Where a denominator is zero the quotient is zero. -/
structure ConjugateSteps (T : E →ₗ[ℝ] E) (r p : ℕ → E) : Prop where
  first : p 0 = r 0
  residual (k : ℕ) : r (k + 1) = r k - (⟪r k, r k⟫ / ⟪p k, T (p k)⟫) • T (p k)
  direction (k : ℕ) : p (k + 1) = (⟪r (k + 1), r (k + 1)⟫ / ⟪r k, r k⟫) • p k + r (k + 1)

namespace ConjugateSteps

variable {T : E →ₗ[ℝ] E} {r p : ℕ → E} {i j k : ℕ}

/-- The first `k` steps divide by nothing that is zero. -/
structure Regular (T : E →ₗ[ℝ] E) (r p : ℕ → E) (k : ℕ) : Prop where
  curved : ∀ i < k, ⟪p i, T (p i)⟫ ≠ 0
  unsolved : ∀ i < k, r i ≠ 0

/-- What the residual `r j` and the direction `p j` have to do with the earlier ones. -/
structure Conjugate (T : E →ₗ[ℝ] E) (r p : ℕ → E) (j : ℕ) : Prop where
  residuals : ∀ i < j, ⟪r i, r j⟫ = 0
  directions : ∀ i < j, ⟪p i, r j⟫ = 0
  conjugate : ∀ i < j, ⟪p i, T (p j)⟫ = 0

theorem inner_self_ne_zero_of (h : Regular T r p k) (hi : i < k) : ⟪r i, r i⟫ ≠ 0 :=
  inner_self_ne_zero.mpr (h.unsolved i hi)

/-- A step along a direction makes the residual orthogonal to it. -/
theorem inner_direction_succ (h : ConjugateSteps T r p) (hcurved : ⟪p k, T (p k)⟫ ≠ 0)
    (hself : ⟪p k, r k⟫ = ⟪r k, r k⟫) : ⟪p k, r (k + 1)⟫ = 0 := by
  rw [h.residual, inner_sub_right, inner_smul_right, hself, div_mul_cancel₀ _ hcurved, sub_self]

/-- The part of a direction that is not the residual does not matter to the residual. -/
theorem inner_direction_self (h : ConjugateSteps T r p) (hcurved : ∀ i < k, ⟪p i, T (p i)⟫ ≠ 0) :
    ⟪p k, r k⟫ = ⟪r k, r k⟫ := by
  induction k with
  | zero => rw [h.first]
  | succ k ih =>
    have hself := ih fun i hi => hcurved i (by omega)
    have horth := h.inner_direction_succ (hcurved k (by omega)) hself
    rw [h.direction, inner_add_left, inner_smul_left, horth, mul_zero, zero_add]

/-- What is orthogonal to two consecutive directions is orthogonal to the residual there. -/
theorem inner_residual_eq_zero (h : ConjugateSteps T r p) {v : E} (hp : ∀ i ≤ j, ⟪p i, v⟫ = 0)
    (hi : i ≤ j) : ⟪r i, v⟫ = 0 := by
  cases i with
  | zero => rw [← h.first]; exact hp 0 hi
  | succ i =>
    have hr : r (i + 1) = p (i + 1) - (⟪r (i + 1), r (i + 1)⟫ / ⟪r i, r i⟫) • p i := by
      rw [h.direction i, add_sub_cancel_left]
    rw [hr, inner_sub_left, inner_smul_left, hp _ hi, hp i (by omega), mul_zero, sub_zero]

/-- Under a positive operator every direction is curved as long as the residuals do not vanish. -/
theorem curvature_pos (h : ConjugateSteps T r p) (hT : ∀ v, v ≠ 0 → 0 < ⟪v, T v⟫)
    (hr : ∀ i ≤ k, r i ≠ 0) : 0 < ⟪p k, T (p k)⟫ := by
  induction k using Nat.strong_induction_on with
  | _ k ih =>
    have hself := h.inner_direction_self fun i hi =>
      (ih i hi fun j hj => hr j (hj.trans hi.le)).ne'
    apply hT
    intro h0
    rw [h0, inner_zero_left, eq_comm, inner_self_eq_zero] at hself
    exact hr k le_rfl hself

theorem regular_of_unsolved (h : ConjugateSteps T r p) (hT : ∀ v, v ≠ 0 → 0 < ⟪v, T v⟫)
    (hr : ∀ i < k, r i ≠ 0) : Regular T r p k where
  curved _ hi := (h.curvature_pos hT fun j hj => hr j (hj.trans_lt hi)).ne'
  unsolved := hr

/-- The image of a direction is a difference of residuals. -/
theorem image_eq (h : ConjugateSteps T r p) (hr : Regular T r p k) (hi : i < k) :
    T (p i) = (⟪p i, T (p i)⟫ / ⟪r i, r i⟫) • (r i - r (i + 1)) := by
  have hne := inner_self_ne_zero_of hr hi
  rw [h.residual i, sub_sub_cancel, smul_smul, div_mul_div_cancel₀ hne, div_self (hr.curved i hi),
    one_smul]

/-- Along an earlier direction the image of what is orthogonal to the residual there depends on the
next residual alone. -/
theorem inner_direction_image (h : ConjugateSteps T r p) (hT : T.IsSymmetric) (hr : Regular T r p k)
    (hi : i < k) {v : E} (hv : ⟪r i, v⟫ = 0) :
    ⟪p i, T v⟫ = -(⟪p i, T (p i)⟫ / ⟪r i, r i⟫ * ⟪r (i + 1), v⟫) := by
  have himage := h.image_eq hr hi
  calc ⟪p i, T v⟫ = ⟪T (p i), v⟫ := (hT _ _).symm
    _ = ⟪(⟪p i, T (p i)⟫ / ⟪r i, r i⟫) • (r i - r (i + 1)), v⟫ := by rw [← himage]
    _ = ⟪p i, T (p i)⟫ / ⟪r i, r i⟫ * (⟪r i, v⟫ - ⟪r (i + 1), v⟫) := by
      rw [inner_smul_left, inner_sub_left, conj_trivial]
    _ = -(⟪p i, T (p i)⟫ / ⟪r i, r i⟫ * ⟪r (i + 1), v⟫) := by rw [hv]; ring

/-- What a step preserves. -/
theorem Conjugate.succ (h : ConjugateSteps T r p) (hT : T.IsSymmetric) (hr : Regular T r p k)
    (hj : j < k) (hc : Conjugate T r p j) : Conjugate T r p (j + 1) := by
  have hself : ⟪p j, r j⟫ = ⟪r j, r j⟫ :=
    h.inner_direction_self fun i hi => hr.curved i (hi.trans hj)
  -- The step takes the part along `p j` out of the residual and leaves the others at zero.
  have hdirections : ∀ i ≤ j, ⟪p i, r (j + 1)⟫ = 0 := by
    intro i hi
    rcases Nat.lt_or_eq_of_le hi with hi | rfl
    · rw [h.residual, inner_sub_right, inner_smul_right, hc.directions i hi, hc.conjugate i hi,
        mul_zero, sub_zero]
    · exact h.inner_direction_succ (hr.curved i hj) hself
  have hresiduals : ∀ i ≤ j, ⟪r i, r (j + 1)⟫ = 0 := fun i =>
    h.inner_residual_eq_zero hdirections
  refine ⟨fun i hi => hresiduals i (by omega), fun i hi => hdirections i (by omega), fun i hi => ?_⟩
  rw [h.direction, map_add, map_smul, inner_add_right, inner_smul_right,
    h.inner_direction_image hT hr (show i < k by omega) (hresiduals i (by omega))]
  rcases Nat.lt_or_eq_of_le (Nat.le_of_lt_succ hi) with hi | rfl
  · rw [hc.conjugate i hi, hresiduals (i + 1) hi]
    ring
  -- For the last direction the two quotients cancel.
  · ring

/-- All residuals and directions of a regular run. -/
theorem conjugate_of_le (h : ConjugateSteps T r p) (hT : T.IsSymmetric) (hr : Regular T r p k)
    (hj : j ≤ k) : Conjugate T r p j := by
  induction j with
  | zero => exact ⟨by simp, by simp, by simp⟩
  | succ j ih => exact Conjugate.succ h hT hr hj (ih (by omega))

/-- The order of two residuals of a regular run does not matter. -/
theorem inner_residual_of_ne (h : ConjugateSteps T r p) (hT : T.IsSymmetric)
    (hr : Regular T r p k) (hi : i ≤ k) (hj : j ≤ k) (hij : i ≠ j) : ⟪r i, r j⟫ = 0 := by
  rcases lt_or_gt_of_ne hij with hlt | hlt
  · exact (h.conjugate_of_le hT hr hj).residuals i hlt
  · rw [real_inner_comm]
    exact (h.conjugate_of_le hT hr hi).residuals j hlt

/-- Nor does the order of two directions. -/
theorem inner_image_of_ne (h : ConjugateSteps T r p) (hT : T.IsSymmetric)
    (hr : Regular T r p k) (hi : i ≤ k) (hj : j ≤ k) (hij : i ≠ j) : ⟪p i, T (p j)⟫ = 0 := by
  rcases lt_or_gt_of_ne hij with hlt | hlt
  · exact (h.conjugate_of_le hT hr hj).conjugate i hlt
  · rw [← hT, real_inner_comm]
    exact (h.conjugate_of_le hT hr hi).conjugate j hlt

theorem Regular.mono (hr : Regular T r p k) (hj : j ≤ k) : Regular T r p j :=
  ⟨fun i hi => hr.curved i (hi.trans_le hj), fun i hi => hr.unsolved i (hi.trans_le hj)⟩

/-- A run is over after as many steps as there are dimensions. -/
theorem lt_finrank [FiniteDimensional ℝ E] (h : ConjugateSteps T r p) (hT : T.IsSymmetric)
    (hr : Regular T r p k) (hk : r k ≠ 0) : k < Module.finrank ℝ E := by
  have hne : ∀ i : Fin (k + 1), r i ≠ 0 := by
    intro i
    rcases Nat.lt_or_eq_of_le (Nat.le_of_lt_succ i.isLt) with hi | hi
    · exact hr.unsolved i hi
    · rw [hi]; exact hk
  have horth : Pairwise fun i j : Fin (k + 1) => ⟪r i, r j⟫ = 0 := by
    intro i j hij
    exact h.inner_residual_of_ne hT hr (Nat.le_of_lt_succ i.isLt) (Nat.le_of_lt_succ j.isLt)
      (Fin.val_ne_of_ne hij)
  have hcard := (linearIndependent_of_ne_zero_of_inner_eq_zero hne horth).fintype_card_le_finrank
  rw [Fintype.card_fin] at hcard
  exact hcard

/-- A regular run has at most as many steps as there are dimensions. -/
theorem le_finrank [FiniteDimensional ℝ E] (h : ConjugateSteps T r p) (hT : T.IsSymmetric)
    (hr : Regular T r p k) : k ≤ Module.finrank ℝ E := by
  cases k with
  | zero => exact Nat.zero_le _
  | succ k => exact h.lt_finrank hT (hr.mono k.le_succ) (hr.unsolved k k.lt_succ_self)

end ConjugateSteps

end Descent

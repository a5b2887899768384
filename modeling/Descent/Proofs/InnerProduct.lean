import Descent.Proofs.Euclidean

/-!
# The laws of the vector operations

In exact arithmetic the vectors of one dimension form a real inner product space, and the product
with a matrix is linear.

* `ExactSpace.dot_comm`, `ExactSpace.dot_self_eq_zero`, `ExactSpace.combine_dot`: the inner product
  is symmetric, definite and linear, in every space with exact operations.
* `ExactSpace.combine_eq_ray`, `ExactSpace.ray_eq_combine`, `ExactSpace.ray_origin`,
  `ExactSpace.origin_ray`: how the operations that move a vector are made of each other.
* `DenseMatrix.apply_combine`, `DenseMatrix.dot_apply`: products with matrices of any shape are
  linear, and those with symmetric matrices are symmetric.
* `inner_product_laws`: all of this for lists of coordinates, whose checks pass.
-/

namespace Descent

namespace ExactSpace

open Space (dimension dot ray combine scale origin)

variable {V : Type} [Space V ℝ] [Coordinatized V ℝ] [ExactSpace V] {v w u : V}

theorem dot_comm (h : dimension v = dimension w) : dot v w = dot w v := by
  rw [dot_eq_inner_euclidean rfl h.symm, real_inner_comm, ← dot_eq_inner_euclidean h.symm rfl]

theorem dot_self_eq_zero : dot v v = 0 ↔ v = origin v := by
  rw [dot_eq_inner_euclidean rfl rfl, inner_self_eq_zero, ← euclidean_origin (v := v) rfl]
  exact ⟨euclidean_injective rfl (SizedSpace.dimension_origin v), fun h => congrArg _ h⟩

theorem combine_dot (hw : dimension w = dimension v) (hu : dimension u = dimension v) (s t : ℝ) :
    dot (combine v s w t) u = s * dot v u + t * dot w u := by
  have hcombine : dimension (combine v s w t) = dimension u :=
    (SizedSpace.dimension_combine hw.symm s t).trans hu.symm
  rw [dot_comm hcombine, dot_combine hu.symm (hw.trans hu.symm), dot_comm hu,
    dot_comm (hu.trans hw.symm)]

theorem combine_eq_ray (h : dimension v = dimension w) (s t : ℝ) :
    combine v s w t = ray (scale v s) w t := by
  have hscale : dimension (scale v s) = dimension v := SizedSpace.dimension_scale v s
  apply euclidean_injective (SizedSpace.dimension_combine h s t)
    ((SizedSpace.dimension_ray (hscale.trans h) t).trans hscale)
  rw [euclidean_combine rfl h.symm, euclidean_ray hscale h.symm, euclidean_scale rfl]

theorem ray_eq_combine (h : dimension v = dimension w) (t : ℝ) :
    ray v w t = combine v 1 w t := by
  apply euclidean_injective (SizedSpace.dimension_ray h t) (SizedSpace.dimension_combine h 1 t)
  rw [euclidean_ray rfl h.symm, euclidean_combine rfl h.symm, one_smul]

theorem ray_origin (v : V) (t : ℝ) : ray v (origin v) t = v := by
  have horigin : dimension (origin v) = dimension v := SizedSpace.dimension_origin v
  apply euclidean_injective (SizedSpace.dimension_ray horigin.symm t) rfl
  rw [euclidean_ray rfl horigin, euclidean_origin rfl, smul_zero, add_zero]

theorem origin_ray (v : V) : ray (origin v) v 1 = v := by
  have horigin : dimension (origin v) = dimension v := SizedSpace.dimension_origin v
  apply euclidean_injective ((SizedSpace.dimension_ray horigin 1).trans horigin) rfl
  rw [euclidean_ray horigin rfl, euclidean_origin rfl, one_smul, zero_add]

end ExactSpace

namespace DenseMatrix

variable {n : ℕ} {a : DenseMatrix ℝ} {v w : List ℝ}

/-- The product with a matrix of any shape is linear. -/
theorem apply_combine (hv : v.length = a.columnCount) (hw : w.length = a.columnCount) (s t : ℝ) :
    a.apply (Space.combine v s w t) = Space.combine (a.apply v) s (a.apply w) t := by
  have hrow : ∀ row ∈ a.rows, Space.dot row (Space.combine v s w t) =
      Space.dot row v * s + Space.dot row w * t := by
    intro row hmem
    have hlength := a.length_of_mem row hmem
    rw [ExactSpace.dot_combine (hv.trans hlength.symm) (hw.trans hlength.symm), mul_comm s,
      mul_comm t]
  show _ = List.zipWith _ (a.rows.map fun row => Space.dot row v)
    (a.rows.map fun row => Space.dot row w)
  rw [List.zipWith_map, List.zipWith_self]
  exact List.map_congr_left hrow

/-- The product with a symmetric matrix is symmetric. -/
theorem dot_apply (ha : a.Square n) (hsymm : (a.toMatrix n).IsSymm) (hv : v.length = n)
    (hw : w.length = n) : Space.dot (a.apply v) w = Space.dot v (a.apply w) := by
  rw [dot_eq_inner (ha.length_apply v) hw, toEuclidean_apply ha hv,
    isSymmetric_toLin (Matrix.isHermitian_iff_isSymm.mpr hsymm), ← toEuclidean_apply ha hw,
    ← dot_eq_inner hv (ha.length_apply w)]

end DenseMatrix

/-- The laws of the operations on vectors of one dimension, whose checks all pass. The inner product
is symmetric, positive definite and linear. A combination is a ray from a scaled vector, a ray is a
combination, and the origin changes nothing. The product with a matrix that has as many columns is
linear, whatever it is put in the place of, and a symmetric matrix can be moved to the other side of
an inner product. -/
theorem inner_product_laws {n : ℕ} {v w z : List ℝ} (hv : v.length = n) (hw : w.length = n)
    (hz : z.length = n) (s t : ℝ) :
    Space.tryDot v w = .ok (Space.dot v w) ∧
    Space.tryRay v w t = .ok (Space.ray v w t) ∧
    Space.tryCombine v s w t = .ok (Space.combine v s w t) ∧
    Space.dot v w = Space.dot w v ∧
    (0 ≤ Space.dot v v ∧ (Space.dot v v = 0 ↔ v = Space.origin v)) ∧
    Space.dot (Space.combine v s w t) z = s * Space.dot v z + t * Space.dot w z ∧
    Space.combine v s w t = Space.ray (Space.scale v s) w t ∧
    Space.ray v w t = Space.combine v 1 w t ∧
    (Space.ray v (Space.origin v) t = v ∧ Space.ray (Space.origin v) v 1 = v) ∧
    ∀ a : DenseMatrix ℝ, a.columnCount = n →
      (∀ out : List ℝ, out.length = a.rowCount →
        a.tryApply v out = .ok (a.apply v) ∧
        a.tryApply w out = .ok (a.apply w) ∧
        a.tryApply (Space.combine v s w t) out =
          .ok (Space.combine (a.apply v) s (a.apply w) t)) ∧
      (a.rowCount = n → (a.toMatrix n).IsSymm →
        Space.dot (a.apply v) w = Space.dot v (a.apply w)) := by
  have hvw : Space.dimension v = Space.dimension w := hv.trans hw.symm
  have hcombine : (Space.combine v s w t).length = n :=
    (SizedSpace.dimension_combine hvw s t).trans hv
  refine ⟨Space.tryDot_of_eq hvw, Space.tryRay_of_eq hvw t, Space.tryCombine_of_eq hvw s t,
    ExactSpace.dot_comm hvw, ⟨ExactSpace.dot_self_nonneg v, ExactSpace.dot_self_eq_zero⟩,
    ExactSpace.combine_dot hvw.symm (hz.trans hv.symm) s t, ExactSpace.combine_eq_ray hvw s t,
    ExactSpace.ray_eq_combine hvw t, ⟨ExactSpace.ray_origin v t, ExactSpace.origin_ray v⟩,
    fun a ha => ⟨fun out hout => ?_, fun hrows hsymm => ?_⟩⟩
  · rw [← DenseMatrix.apply_combine (hv.trans ha.symm) (hw.trans ha.symm)]
    exact ⟨DenseMatrix.tryApply_of_eq (ha.trans hv.symm) hout.symm,
      DenseMatrix.tryApply_of_eq (ha.trans hw.symm) hout.symm,
      DenseMatrix.tryApply_of_eq (ha.trans hcombine.symm) hout.symm⟩
  · exact DenseMatrix.dot_apply ⟨hrows, ha⟩ hsymm hv hw

/-- The matrix that exchanges the two coordinates. -/
def exchange : DenseMatrix ℝ where
  columnCount := 2
  rows := [[0, 1], [1, 0]]
  length_of_mem := by simp

theorem inner_product_laws_of_exchange :
    Space.dot ([1, 0] : List ℝ) [0, 1] = Space.dot [0, 1] ([1, 0] : List ℝ) ∧
    exchange.tryApply (Space.combine [1, 0] 3 [0, 1] 5) [7, 7] =
      .ok (Space.combine (exchange.apply [1, 0]) 3 (exchange.apply [0, 1]) 5) ∧
    Space.dot (exchange.apply [1, 0]) [0, 1] = Space.dot [1, 0] (exchange.apply [0, 1]) := by
  obtain ⟨-, -, -, hcomm, -, -, -, -, -, hmatrix⟩ :=
    inner_product_laws (n := 2) (v := [1, 0]) (w := [0, 1]) (z := [1, 1]) rfl rfl rfl 3 5
  have hsymm : (exchange.toMatrix 2).IsSymm := by
    ext i j
    fin_cases i <;> fin_cases j <;> rfl
  obtain ⟨hlinear, hmove⟩ := hmatrix exchange rfl
  exact ⟨hcomm, (hlinear [7, 7] rfl).2.2, hmove rfl hsymm⟩

end Descent

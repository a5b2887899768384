import Descent.LinearSystem.DenseMatrix
import Descent.Proofs.Exact
import Mathlib.Analysis.Matrix.Hermitian
import Mathlib.Data.List.GetD
import Mathlib.LinearAlgebra.Matrix.PosDef

/-!
# Lists of real coordinates as vectors

* `toEuclidean n v`: the vector of Euclidean space that has the coordinates `v`.
* `DenseMatrix.toMatrix`, `DenseMatrix.toLin`: a square matrix given by its rows, as a matrix and
  as a linear map.
* On lists of `n` coordinates, rays, combinations, inner products, norms and products with a matrix
  are those of Euclidean space.
* `ExactSpace.euclidean`: the same for the vectors of every space with exact operations, which it
  tells apart (`ExactSpace.euclidean_injective`).
  `ExactSpace.norm_eq_sqrt`, `ExactSpace.dot_self_nonneg` and the products `ExactSpace.dot_scale`,
  `ExactSpace.dot_ray` and `ExactSpace.dot_combine` follow.
-/

open scoped RealInnerProductSpace

namespace Descent

/-- The vector with the coordinates `v`. -/
noncomputable def toEuclidean (n : ℕ) (v : List ℝ) : EuclideanSpace ℝ (Fin n) :=
  WithLp.toLp _ fun i => v.getD i 0

/-- The matrix with the given rows. -/
def DenseMatrix.toMatrix (n : ℕ) (a : DenseMatrix ℝ) : Matrix (Fin n) (Fin n) ℝ :=
  fun i j => (a.rows.getD i []).getD j 0

/-- The product with the matrix, as a linear map. -/
noncomputable def DenseMatrix.toLin (n : ℕ) (a : DenseMatrix ℝ) :
    EuclideanSpace ℝ (Fin n) →ₗ[ℝ] EuclideanSpace ℝ (Fin n) :=
  (a.toMatrix n).toEuclideanLin

section Coordinates

variable {n : ℕ} {v w : List ℝ} (hv : v.length = n) (hw : w.length = n)
include hv hw

theorem getD_zipWith (f : ℝ → ℝ → ℝ) (i : Fin n) :
    (List.zipWith f v w).getD i 0 = f (v.getD i 0) (w.getD i 0) := by
  have h1 : i < v.length := hv ▸ i.isLt
  have h2 : i < w.length := hw ▸ i.isLt
  simp [List.getD, h1, h2]

theorem toEuclidean_injective (h : toEuclidean n v = toEuclidean n w) : v = w := by
  apply List.ext_getElem (hv.trans hw.symm)
  intro i h1 h2
  have hi := congrFun (congrArg WithLp.ofLp h) ⟨i, hv ▸ h1⟩
  simpa [toEuclidean, List.getD, h1, h2] using hi

theorem toEuclidean_ray (t : ℝ) :
    toEuclidean n (Space.ray v w t) = toEuclidean n v + t • toEuclidean n w := by
  ext i
  refine (getD_zipWith hv hw _ i).trans ?_
  show v.getD i 0 + w.getD i 0 * t = v.getD i 0 + t * w.getD i 0
  ring

theorem toEuclidean_combine (s t : ℝ) :
    toEuclidean n (Space.combine v s w t) = s • toEuclidean n v + t • toEuclidean n w := by
  ext i
  refine (getD_zipWith hv hw _ i).trans ?_
  show v.getD i 0 * s + w.getD i 0 * t = s * v.getD i 0 + t * w.getD i 0
  ring

/-- The sum accumulated from the left is the inner product. -/
theorem dot_eq_sum : Space.dot v w = ∑ i : Fin n, v.getD i 0 * w.getD i 0 := by
  have hlist : List.zipWith (· * ·) v w = List.ofFn fun i : Fin n => v.getD i 0 * w.getD i 0 := by
    apply List.ext_getElem
    · simp [hv, hw]
    · intro i h1 h2
      simp only [List.length_zipWith, lt_min_iff] at h1
      simp [List.getD, h1.1, h1.2]
  rw [← List.sum_ofFn, ← hlist, List.sum_eq_foldl]
  rfl

theorem dot_eq_inner : Space.dot v w = ⟪toEuclidean n v, toEuclidean n w⟫ := by
  rw [dot_eq_sum hv hw, PiLp.inner_apply]
  refine Finset.sum_congr rfl fun i _ => ?_
  show v.getD i 0 * w.getD i 0 = w.getD i 0 * v.getD i 0
  ring

end Coordinates

theorem norm_eq_norm {n : ℕ} {v : List ℝ} (hv : v.length = n) :
    Space.norm v = ‖toEuclidean n v‖ := by
  rw [norm_eq_sqrt_real_inner, ← dot_eq_inner hv hv]
  rfl

theorem toEuclidean_scale {n : ℕ} {v : List ℝ} (hv : v.length = n) (t : ℝ) :
    toEuclidean n (Space.scale v t) = t • toEuclidean n v := by
  ext i
  have hi : i < v.length := hv ▸ i.isLt
  show (v.map (· * t)).getD i 0 = t * v.getD i 0
  simp [List.getD, hi, mul_comm]

namespace ExactSpace

open Coordinatized (toList)
open Space (dimension dot ray combine scale origin)

variable {V : Type} [Space V ℝ] [Coordinatized V ℝ] [ExactSpace V]

/-- The norm is that of the coordinates, for the line too. -/
theorem norm_eq_sqrt (v : V) : Space.norm v = √(dot v v) := by
  rw [norm_eq, dot_eq rfl]
  rfl

/-- The vector of Euclidean space that has the coordinates of `v`. -/
noncomputable def euclidean (n : ℕ) (v : V) : EuclideanSpace ℝ (Fin n) :=
  toEuclidean n (toList v)

section

variable {n : ℕ} {v w : V} (hv : dimension v = n) (hw : dimension w = n)
include hv

theorem length_toList : (toList v).length = n :=
  (dimension_eq v).symm.trans hv

theorem euclidean_scale (t : ℝ) : euclidean n (scale v t) = t • euclidean n v := by
  rw [euclidean, toList_scale, toEuclidean_scale (length_toList hv)]
  rfl

theorem euclidean_origin : euclidean n (origin v) = 0 := by
  have hscale : origin v = scale v 0 := by
    apply toList_injective
    rw [toList_origin, toList_scale]
    simp [origin, scale]
  rw [hscale, euclidean_scale hv, zero_smul]

theorem norm_eq_norm_euclidean : Space.norm v = ‖euclidean n v‖ := by
  rw [norm_eq]
  exact norm_eq_norm (length_toList hv)

include hw

theorem euclidean_injective (h : euclidean n v = euclidean n w) : v = w :=
  toList_injective (toEuclidean_injective (length_toList hv) (length_toList hw) h)

theorem euclidean_ray (t : ℝ) :
    euclidean n (ray v w t) = euclidean n v + t • euclidean n w := by
  rw [euclidean, toList_ray (hv.trans hw.symm)]
  exact toEuclidean_ray (length_toList hv) (length_toList hw) t

theorem euclidean_combine (s t : ℝ) :
    euclidean n (combine v s w t) = s • euclidean n v + t • euclidean n w := by
  rw [euclidean, toList_combine (hv.trans hw.symm)]
  exact toEuclidean_combine (length_toList hv) (length_toList hw) s t

theorem norm_sub : Space.norm (ray v w (-1)) = ‖euclidean n v - euclidean n w‖ := by
  rw [norm_eq_norm_euclidean ((SizedSpace.dimension_ray (hv.trans hw.symm) _).trans hv),
    euclidean_ray hv hw, neg_one_smul, sub_eq_add_neg]

theorem dot_eq_inner_euclidean : dot v w = ⟪euclidean n v, euclidean n w⟫ := by
  rw [dot_eq (hv.trans hw.symm)]
  exact dot_eq_inner (length_toList hv) (length_toList hw)

end

theorem dot_self_nonneg (v : V) : 0 ≤ dot v v := by
  rw [dot_eq_inner_euclidean rfl rfl]
  exact real_inner_self_nonneg

theorem dot_scale {v w : V} (h : dimension v = dimension w) (t : ℝ) :
    dot v (scale w t) = t * dot v w := by
  rw [dot_eq_inner_euclidean rfl ((SizedSpace.dimension_scale w t).trans h.symm),
    euclidean_scale h.symm, inner_smul_right, dot_eq_inner_euclidean rfl h.symm]

theorem dot_ray {v w u : V} (hw : dimension w = dimension v) (hu : dimension u = dimension v)
    (t : ℝ) : dot (ray v w t) u = dot v u + t * dot w u := by
  rw [dot_eq_inner_euclidean (SizedSpace.dimension_ray hw.symm t) hu, euclidean_ray rfl hw,
    inner_add_left, real_inner_smul_left, dot_eq_inner_euclidean rfl hu,
    dot_eq_inner_euclidean hw hu]

theorem dot_combine {v w u : V} (hw : dimension w = dimension v) (hu : dimension u = dimension v)
    (s t : ℝ) : dot v (combine w s u t) = s * dot v w + t * dot v u := by
  rw [dot_eq_inner_euclidean rfl ((SizedSpace.dimension_combine (hw.trans hu.symm) s t).trans hw),
    euclidean_combine hw hu, inner_add_right, inner_smul_right, inner_smul_right,
    dot_eq_inner_euclidean rfl hw, dot_eq_inner_euclidean rfl hu]

end ExactSpace

namespace DenseMatrix

variable {n : ℕ} {a : DenseMatrix ℝ}

theorem Square.lt_length (ha : a.Square n) (i : Fin n) : i < a.rows.length := by
  rw [show a.rows.length = n from ha.rowCount_eq]
  exact i.isLt

theorem Square.length_row (ha : a.Square n) (i : Fin n) : (a.rows.getD i []).length = n := by
  have hi := ha.lt_length i
  rw [List.getD_eq_getElem _ _ hi, a.length_of_mem _ (List.getElem_mem hi), ha.columnCount_eq]

theorem toEuclidean_apply (ha : a.Square n) {x : List ℝ} (hx : x.length = n) :
    toEuclidean n (a.apply x) = a.toLin n (toEuclidean n x) := by
  ext i
  have hi := ha.lt_length i
  have hrow : (a.apply x).getD i 0 = Space.dot (a.rows.getD i []) x := by
    simp [apply, List.getD, hi, Space.dot]
  refine (hrow.trans (dot_eq_sum (ha.length_row i) hx)).trans ?_
  rfl

theorem isSymmetric_toLin (ha : (a.toMatrix n).IsHermitian) : (a.toLin n).IsSymmetric :=
  Matrix.isSymmetric_toEuclideanLin_iff.mpr ha

/-- Every direction has positive curvature under a positive definite matrix. -/
theorem inner_toLin_pos (ha : (a.toMatrix n).PosDef) {v : EuclideanSpace ℝ (Fin n)} (hv : v ≠ 0) :
    0 < ⟪v, a.toLin n v⟫ := by
  have hpos := ha.dotProduct_mulVec_pos (x := v.ofLp) (by simpa using hv)
  rw [EuclideanSpace.inner_eq_star_dotProduct, dotProduct_comm]
  exact hpos

end DenseMatrix

end Descent

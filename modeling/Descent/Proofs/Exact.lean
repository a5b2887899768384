import Descent.Proofs.Dimensions
import Descent.StrongWolfe.Conditions
import Mathlib.Analysis.InnerProductSpace.PiL2

/-!
# Exact arithmetic

* The real numbers are scalars, with the exact square root.
* `positivePart_eq_max`: the positive part of a real number is a maximum.
* `ExactSpace V`: a space over the reals in which every operation on vectors of one dimension is
  that of their coordinates. Vectors given by coordinates and the line are such spaces.
* `ExactSpace.ray_zero`: a ray begins at its first vector.
-/

namespace Descent

noncomputable instance : Scalar ℝ where
  decidableLE _ _ := inferInstance
  sqrt := Real.sqrt
  abs a := |a|
  toBEq := instBEqOfDecidableEq
  zero_beq_zero := beq_self_eq_true (0 : ℝ)

@[simp] theorem ray_line (x y t : ℝ) : Space.ray x y t = x + y * t := rfl

@[simp] theorem dot_line (x y : ℝ) : Space.dot x y = x * y := rfl

@[simp] theorem scale_line (x a : ℝ) : Space.scale x a = x * a := rfl

@[simp] theorem combine_line (x a y b : ℝ) : Space.combine x a y b = x * a + y * b := rfl

@[simp] theorem norm_line (x : ℝ) : Space.norm x = |x| := rfl

theorem positivePart_eq_max (a : ℝ) : Scalar.positivePart a = max a 0 := by
  unfold Scalar.positivePart
  split_ifs with h
  · exact (max_eq_left h.1).symm
  · exact (max_eq_right (not_lt.mp fun hlt => h ⟨hlt.le, hlt.not_ge⟩)).symm

theorem sufficientDecrease_iff {rule : StrongWolfe ℝ} {start : Slice ℝ} {t : Trial ℝ} :
    rule.SufficientDecrease start t ↔
      t.value ≤ start.value + rule.c₁ * t.step * start.slope :=
  Iff.rfl

theorem flatEnough_iff {rule : StrongWolfe ℝ} {start : Slice ℝ} {t : Trial ℝ} :
    rule.FlatEnough start t ↔ |t.slope| ≤ -rule.c₂ * start.slope :=
  Iff.rfl

open Coordinatized (toList)

/-- A space over the reals whose operations are those of the coordinates. -/
class ExactSpace (V : Type) [Space V ℝ] [Coordinatized V ℝ] : Prop extends SizedSpace V ℝ where
  toList_injective : Function.Injective (toList : V → List ℝ)
  dimension_eq (v : V) : Space.dimension v = (toList v).length
  toList_origin (v : V) : toList (Space.origin v) = Space.origin (toList v)
  toList_scale (v : V) (a : ℝ) : toList (Space.scale v a) = Space.scale (toList v) a
  toList_ray {v w : V} (h : Space.dimension v = Space.dimension w) (t : ℝ) :
    toList (Space.ray v w t) = Space.ray (toList v) (toList w) t
  toList_combine {v w : V} (h : Space.dimension v = Space.dimension w) (a b : ℝ) :
    toList (Space.combine v a w b) = Space.combine (toList v) a (toList w) b
  dot_eq {v w : V} (h : Space.dimension v = Space.dimension w) :
    Space.dot v w = Space.dot (toList v) (toList w)
  norm_eq (v : V) : Space.norm v = Space.norm (toList v)

instance : ExactSpace (List ℝ) where
  toList_injective _ _ h := h
  dimension_eq _ := rfl
  toList_origin _ := rfl
  toList_scale _ _ := rfl
  toList_ray _ _ := rfl
  toList_combine _ _ _ := rfl
  dot_eq _ := rfl
  norm_eq _ := rfl

instance : ExactSpace ℝ where
  toList_injective _ _ h := List.singleton_injective h
  dimension_eq _ := rfl
  toList_origin _ := rfl
  toList_scale _ _ := rfl
  toList_ray _ _ := rfl
  toList_combine _ _ _ := rfl
  dot_eq _ := (zero_add _).symm
  norm_eq v := by
    change |v| = √(0 + v * v)
    rw [zero_add, Real.sqrt_mul_self_eq_abs]

namespace ExactSpace

variable {V : Type} [Space V ℝ] [Coordinatized V ℝ] [ExactSpace V]

theorem ray_zero {v w : V} (h : Space.dimension v = Space.dimension w) :
    Space.ray v w (0 : ℝ) = v := by
  apply toList_injective
  rw [toList_ray h]
  rw [dimension_eq, dimension_eq] at h
  apply List.ext_getElem
  · simp [Space.ray, Coordinates.ray, h]
  · intro i h₁ h₂
    simp [Space.ray, Coordinates.ray]

end ExactSpace

end Descent

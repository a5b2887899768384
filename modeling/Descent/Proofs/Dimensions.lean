import Descent.LinearSystem.DenseMatrix
import Descent.Proofs.Program
import Descent.Space.Line

/-!
# Dimensions

* `SizedSpace V S`: a space whose operations keep the dimension, as vectors given by coordinates and
  the line do.
* `DenseMatrix.Square`: a matrix with as many rows as columns.
* `Objective.Answers`: at points of one dimension an objective answers with gradients of that
  dimension, given a buffer of the right kind.
-/

namespace Descent

/-- A space whose operations on vectors of one dimension keep that dimension. -/
class SizedSpace (V S : Type) [Space V S] : Prop where
  dimension_origin (v : V) : Space.dimension (Space.origin v) = Space.dimension v
  dimension_scale (v : V) (a : S) : Space.dimension (Space.scale v a) = Space.dimension v
  dimension_ray {v w : V} (h : Space.dimension v = Space.dimension w) (t : S) :
    Space.dimension (Space.ray v w t) = Space.dimension v
  dimension_combine {v w : V} (h : Space.dimension v = Space.dimension w) (a b : S) :
    Space.dimension (Space.combine v a w b) = Space.dimension v

section Coordinates

variable {S : Type} [Scalar S] {v w : List S} {n : Nat} (hv : v.length = n) (hw : w.length = n)

theorem length_origin (v : List S) : (Space.origin v).length = v.length :=
  List.length_map _

include hv hw

theorem length_ray (t : S) : (Space.ray v w t).length = n := by
  show (List.zipWith _ v w).length = n
  rw [List.length_zipWith, hv, hw, Nat.min_self]

theorem length_combine (s t : S) : (Space.combine v s w t).length = n := by
  show (List.zipWith _ v w).length = n
  rw [List.length_zipWith, hv, hw, Nat.min_self]

end Coordinates

instance {S : Type} [Scalar S] : SizedSpace (List S) S where
  dimension_origin _ := List.length_map _
  dimension_scale _ _ := List.length_map _
  dimension_ray h _ := length_ray rfl h.symm _
  dimension_combine h _ _ := length_combine rfl h.symm _ _

instance {S : Type} [Scalar S] : SizedSpace S S where
  dimension_origin _ := rfl
  dimension_scale _ _ := rfl
  dimension_ray _ _ := rfl
  dimension_combine _ _ _ := rfl

/-- The matrix has `n` rows and `n` columns. -/
structure DenseMatrix.Square {S : Type} (a : DenseMatrix S) (n : Nat) : Prop where
  rowCount_eq : a.rowCount = n
  columnCount_eq : a.columnCount = n

theorem DenseMatrix.Square.length_apply {S : Type} [Scalar S] {a : DenseMatrix S} {n : Nat}
    (h : a.Square n) (x : List S) : (a.apply x).length = n :=
  (a.length_apply x).trans h.rowCount_eq

variable {σ V S : Type} [Space V S]

/-- At a point of dimension `n`, and with a buffer of kind `good`, the objective leaves a gradient
of dimension `n` in the buffer, which is again of that kind. -/
def Objective.Answers (f : Objective σ V S) (n : Nat) (good : V → Prop) : Prop :=
  ∀ x buffer st, Space.dimension x = n → good buffer →
    Space.dimension ((f x buffer).run st).1.2 = n ∧ good ((f x buffer).run st).1.2

theorem evaluate_total {f : Objective σ V S} {n : Nat} {good : V → Prop} (hf : f.Answers n good)
    {x buffer : V} (hx : Space.dimension x = n) (hb : good buffer) (s : Session σ V S) :
    ∃ p s', evaluate f x buffer s = .ok p s' ∧ Space.dimension p.gradient = n ∧
      good p.gradient := by
  obtain ⟨hdim, hgood⟩ := hf x buffer s.state hx hb
  exact ⟨_, _, rfl, hdim, hgood⟩

end Descent

import Descent.LengthMismatch

/-!
# Linear spaces

* `Space V S`: vectors `V` over scalars `S`, with the operations that the methods use. Points and
  directions are vectors alike.
* `Space.tryDot`, `Space.tryRay`, `Space.tryCombine`: the binary operations, refused for vectors of
  different dimensions.

The unchecked operations are total; their values for vectors of different dimensions have no
meaning, and nothing in this library uses them.
-/

namespace Descent

/-- Vectors `V` over the scalars `S`. -/
class Space (V : Type) (S : outParam Type) where
  /-- The number of coordinates. -/
  dimension : V → Nat
  /-- The zero vector of the space to which a vector belongs. -/
  origin : V → V
  /-- The multiple `a v`. -/
  scale (v : V) (a : S) : V
  /-- The point `v + t w` of the ray from `v` along `w`. -/
  ray (v w : V) (t : S) : V
  /-- The linear combination `a v + b w`. -/
  combine (v : V) (a : S) (w : V) (b : S) : V
  /-- The inner product. -/
  dot (v w : V) : S
  /-- The length of a vector. -/
  norm : V → S

namespace Space

variable {V S : Type} [Space V S]

/-- The inner product of a vector with itself. -/
def normSquared (v : V) : S := dot v v

/-- `dot` of two vectors of one dimension. -/
def tryDot (v w : V) : Except LengthMismatch S := do
  requireEqual (dimension v) (dimension w)
  return dot v w

/-- `ray` of two vectors of one dimension. -/
def tryRay (v w : V) (t : S) : Except LengthMismatch V := do
  requireEqual (dimension v) (dimension w)
  return ray v w t

/-- `combine` of two vectors of one dimension. -/
def tryCombine (v : V) (a : S) (w : V) (b : S) : Except LengthMismatch V := do
  requireEqual (dimension v) (dimension w)
  return combine v a w b

theorem tryDot_of_eq {v w : V} (h : dimension v = dimension w) : tryDot v w = .ok (dot v w) := by
  simp only [tryDot, requireEqual_of_eq h]; rfl

theorem tryRay_of_eq {v w : V} (h : dimension v = dimension w) (t : S) :
    tryRay v w t = .ok (ray v w t) := by
  simp only [tryRay, requireEqual_of_eq h]; rfl

theorem tryCombine_of_eq {v w : V} (h : dimension v = dimension w) (a b : S) :
    tryCombine v a w b = .ok (combine v a w b) := by
  simp only [tryCombine, requireEqual_of_eq h]; rfl

end Space

end Descent

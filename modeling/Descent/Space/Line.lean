import Descent.Space.Coordinates

/-!
# The line

The scalars are a linear space of dimension one over themselves. Two things differ from vectors
with one coordinate: the inner product is the bare product, not added to zero, and the norm is the
absolute value, without a square root.
-/

namespace Descent

instance {S : Type} [Scalar S] : Space S S where
  dimension _ := 1
  origin _ := 0
  scale x a := x * a
  ray x y t := x + y * t
  combine x a y b := x * a + y * b
  dot x y := x * y
  norm := Scalar.abs

/-- A scalar is its only coordinate. -/
instance {S : Type} [Scalar S] : Coordinatized S S where
  arity := some 1
  toList x := [x]
  ofList v := v.headD 0

end Descent

/-!
# Scalars

* `Scalar S`: the operations that the methods use on numbers. Comparisons are `≤`, decided, and
  `==`. The only law is `0 == 0`: the machine floats with their rounding, infinities and NaN are
  scalars, and so is an exact ordered field with a square root.
* `Scalar.positivePart`: the larger of a number and zero.
* `Float` and `Float32`, with the operations of IEEE 754.
-/

namespace Descent

/-- Numbers with the arithmetic and the comparisons that the methods need. -/
class Scalar (S : Type) extends Zero S, One S, Add S, Sub S, Mul S, Div S, Neg S, LE S, BEq S where
  decidableLE : ∀ a b : S, Decidable (a ≤ b)
  sqrt : S → S
  abs : S → S
  zero_beq_zero : ((0 : S) == 0) = true

-- Where numbers have operations of their own, these are found first.
attribute [instance (low)] Scalar.toZero Scalar.toOne Scalar.toAdd Scalar.toSub Scalar.toMul
  Scalar.toDiv Scalar.toNeg Scalar.toLE Scalar.toBEq

namespace Scalar

variable {S : Type} [Scalar S]

instance (a b : S) : Decidable (a ≤ b) := decidableLE a b

/-- The larger of `a` and `0`; it is `0` where `a` is not comparable to zero. -/
def positivePart (a : S) : S :=
  if 0 ≤ a ∧ ¬a ≤ 0 then a else 0

theorem positivePart_of_not_le {a : S} (h : ¬(0 : S) ≤ a) : positivePart a = 0 :=
  if_neg fun h' => h h'.1

end Scalar

instance : Scalar Float where
  decidableLE a b := inferInstanceAs (Decidable (a ≤ b))
  sqrt := Float.sqrt
  abs := Float.abs
  zero_beq_zero := by decide

instance : Scalar Float32 where
  decidableLE a b := inferInstanceAs (Decidable (a ≤ b))
  sqrt := Float32.sqrt
  abs := Float32.abs
  zero_beq_zero := by decide

end Descent

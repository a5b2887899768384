import Descent.Scalar
import Descent.Space

/-!
# Vectors given by coordinates

* Lists of scalars are a linear space: the operations go coordinate by coordinate, the inner
  product adds the products from the left, starting at zero (`Coordinates.dot`), and the norm is
  the square root of the inner product of a vector with itself.
* `Coordinatized V S`: vectors that can be read and written as lists of coordinates. Where all
  vectors have the same number of them, a list of another length is refused
  (`Coordinatized.ofList?`).
-/

namespace Descent

namespace Coordinates

variable {S : Type} [Scalar S]

/-- The sum of the products of the coordinates, accumulated from the left. -/
def dot (v w : List S) : S :=
  (List.zipWith (· * ·) v w).foldl (· + ·) 0

/-- Adds `t` times the second vector, `v + w t` in each coordinate. -/
def ray (v w : List S) (t : S) : List S :=
  List.zipWith (fun x y => x + y * t) v w

/-- The linear combination `v a + w b` in each coordinate. -/
def combine (v : List S) (a : S) (w : List S) (b : S) : List S :=
  List.zipWith (fun x y => x * a + y * b) v w

end Coordinates

instance {S : Type} [Scalar S] : Space (List S) S where
  dimension := List.length
  origin v := v.map fun _ => 0
  scale v a := v.map (· * a)
  ray := Coordinates.ray
  combine := Coordinates.combine
  dot := Coordinates.dot
  norm v := Scalar.sqrt (Coordinates.dot v v)

/-- Vectors that are determined by a list of coordinates. -/
class Coordinatized (V : Type) (S : outParam Type) where
  /-- The number of coordinates of every vector, if it is the same for all. -/
  arity : Option Nat
  toList : V → List S
  /-- The vector with the given coordinates, where their number is right. -/
  ofList : List S → V

namespace Coordinatized

variable {V S : Type} [Coordinatized V S]

/-- Passes if there are vectors with `n` coordinates. -/
def requireArity (V : Type) {S : Type} [Coordinatized V S] (n : Nat) :
    Except LengthMismatch Unit :=
  match arity V with
  | some k => requireEqual n k
  | none => .ok ()

/-- The vector with the given coordinates, refused if there is none. -/
def ofList? (xs : List S) : Except LengthMismatch V := do
  requireArity V xs.length
  return ofList xs

/-- Why a list is refused: only the scalars of the line have a fixed number of coordinates. -/
def refusal : LengthMismatch → String := LengthMismatch.messageAbout "bad scalar"

end Coordinatized

/-- Vectors may have any number of coordinates. -/
instance {S : Type} : Coordinatized (List S) S where
  arity := none
  toList v := v
  ofList v := v

end Descent

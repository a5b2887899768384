import Descent.Space.Coordinates

/-!
# Dense matrices

* `DenseMatrix S`: a matrix as the list of its rows, all of one length. A matrix without rows still
  has a number of columns.
* `DenseMatrix.apply`: the product of a matrix and a vector, the inner product of every row with
  the vector.
* `DenseMatrix.tryApply`: the product with its checks.
-/

namespace Descent

/-- A matrix given by its rows. -/
structure DenseMatrix (S : Type) where
  columnCount : Nat
  rows : List (List S)
  length_of_mem : ∀ row ∈ rows, row.length = columnCount

namespace DenseMatrix

variable {S : Type}

def rowCount (a : DenseMatrix S) : Nat := a.rows.length

/-- The matrix with the entries `entry i j`. -/
def ofFn (rowCount columnCount : Nat) (entry : Nat → Nat → S) : DenseMatrix S where
  columnCount
  rows := (List.range rowCount).map fun i => (List.range columnCount).map fun j => entry i j
  length_of_mem := by
    intro row h
    obtain ⟨i, -, rfl⟩ := List.mem_map.1 h
    simp

@[simp] theorem rowCount_ofFn (m n : Nat) (entry : Nat → Nat → S) :
    (ofFn m n entry).rowCount = m := by
  simp [ofFn, rowCount]

variable [Scalar S]

/-- The product of a matrix and a vector. -/
def apply (a : DenseMatrix S) (x : List S) : List S :=
  a.rows.map fun row => Coordinates.dot row x

@[simp] theorem length_apply (a : DenseMatrix S) (x : List S) : (a.apply x).length = a.rowCount :=
  List.length_map _

/-- The product, put in the place of a vector `out` whose content is not used. The columns are
checked against `x` first, then the rows against `out`. -/
def tryApply (a : DenseMatrix S) (x out : List S) : Except LengthMismatch (List S) := do
  requireEqual a.columnCount x.length
  requireEqual a.rowCount out.length
  return a.apply x

theorem tryApply_of_eq {a : DenseMatrix S} {x out : List S} (hx : a.columnCount = x.length)
    (hout : a.rowCount = out.length) : a.tryApply x out = .ok (a.apply x) := by
  simp only [tryApply, requireEqual_of_eq hx, requireEqual_of_eq hout]; rfl

end DenseMatrix

end Descent

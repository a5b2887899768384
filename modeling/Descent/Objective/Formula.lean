import Descent.Objective
import Descent.Scalar.Bits
import Descent.Space.Coordinates

/-!
# Objectives given by formulas

* `Formula S`: expressions over the coordinates of the point, the old gradient buffer, the number
  of evaluations so far and values computed before.
* `Formula.eval`: their values. What a formula names and the environment lacks is zero.
* `FormulaObjective S`: named formulas, the formula of the value and those of the gradient.
* `FormulaObjective.objective?`: the objective that computes with them. All formulas of a call see
  the old buffer. An entry of the gradient without a formula keeps what the old buffer held.
-/

namespace Descent

/-- Operations on one number. -/
inductive UnaryOp where
  | neg
  | abs
  | sqrt

/-- Operations on two numbers; `less` is one or zero. -/
inductive BinaryOp where
  | add
  | sub
  | mul
  | div
  | less

/-- Expressions for the value or an entry of the gradient of an objective. -/
inductive Formula (S : Type) where
  | constant (c : S)
  /-- A coordinate of the point. -/
  | coordinate (i : Nat)
  /-- A coordinate of the gradient buffer before the call. -/
  | buffered (i : Nat)
  /-- The value of a named formula. -/
  | named (i : Nat)
  /-- The number of evaluations before this one. -/
  | callCount
  /-- The value of the objective, for the formulas of its gradient. -/
  | objectiveValue
  | unary (op : UnaryOp) (a : Formula S)
  | binary (op : BinaryOp) (a b : Formula S)
  /-- `a` if `c` is not zero, else `b`. -/
  | select (c a b : Formula S)

variable {S : Type}

/-- What a formula can name. -/
structure Environment (S : Type) where
  point : Array S
  buffer : Array S
  named : Array S
  callCount : S
  objectiveValue : S

section

variable [Scalar S]

def UnaryOp.eval : UnaryOp → S → S
  | neg, a => -a
  | abs, a => Scalar.abs a
  | sqrt, a => Scalar.sqrt a

def BinaryOp.eval : BinaryOp → S → S → S
  | add, a, b => a + b
  | sub, a, b => a - b
  | mul, a, b => a * b
  | div, a, b => a / b
  | less, a, b => if a ≤ b ∧ ¬b ≤ a then 1 else 0

/-- The value of a formula. -/
def Formula.eval (env : Environment S) : Formula S → S
  | constant c => c
  | coordinate i => env.point[i]?.getD 0
  | buffered i => env.buffer[i]?.getD 0
  | named i => env.named[i]?.getD 0
  | callCount => env.callCount
  | objectiveValue => env.objectiveValue
  | unary op a => op.eval (a.eval env)
  | binary op a b => op.eval (a.eval env) (b.eval env)
  | select c a b => if c.eval env == 0 then b.eval env else a.eval env

end

/-- An objective given by formulas. The named formulas are computed in order, and each may use
those before it. -/
structure FormulaObjective (S : Type) where
  named : List (Formula S)
  value : Formula S
  gradient : List (Option (Formula S))

namespace FormulaObjective

variable [Binary S]

/-- The environment of a call with all named values and the value of the objective. -/
def environment (f : FormulaObjective S) (point buffer : Array S) (calls : Nat) : Environment S :=
  let callCount : S := Binary.ofInt calls
  let env : Environment S := { point, buffer, named := #[], callCount, objectiveValue := 0 }
  let env := f.named.foldl (fun env g => { env with named := env.named.push (g.eval env) }) env
  { env with objectiveValue := f.value.eval env }

/-- The objective that the formulas describe, on vectors with as many coordinates as there are
entries of the gradient; its state counts the evaluations. -/
def objective {V : Type} [Coordinatized V S] (f : FormulaObjective S) : Objective Nat V S :=
  fun x buffer => do
    let calls ← getModify (· + 1)
    let env := f.environment (Coordinatized.toList x).toArray
      (Coordinatized.toList buffer).toArray calls
    let gradient := f.gradient.mapIdx fun i g => (g.getD (.buffered i)).eval env
    return (env.objectiveValue, Coordinatized.ofList gradient)

/-- The objective, refused where its gradient is not a vector of the space. -/
def objective? {V : Type} [Coordinatized V S] (f : FormulaObjective S) :
    Except LengthMismatch (Objective Nat V S) := do
  Coordinatized.requireArity V f.gradient.length
  return f.objective

end FormulaObjective

end Descent

import Descent.LinearSystem.DenseMatrix
import Descent.LinearSystem.Event
import Descent.Recorder

/-!
# The conjugate gradient method for linear systems

`ConjugateGradient.solve` improves a guess `x` for a solution of `A x = b`. It keeps the residual
`r = b - A x` and a direction `p`, goes along `p` by `⟨r, r⟩ / ⟨p, A p⟩`, and adds to the new
residual as much of the old direction as makes the directions conjugate. In exact arithmetic and
for a symmetric positive definite matrix that solves the system in as many steps as it has
unknowns.

* `ConjugateGradient S`: the tolerance for the norm of the residual and the limit of iterations.
* `SolveError`: why a system is refused.
* `ConjugateGradient.State`: the state at the head of an iteration.
* `ConjugateGradient.step`: an iteration, and how it ends (`Progress`).
* `Solution`: the improved `x` and the report on the run.
-/

namespace Descent

/-- Why a linear system is refused. -/
inductive SolveError where
  | notSquare (rows columns : Nat)
  | dimensionMismatch (expected found : Nat)
  /-- The check of a vector operation inside the solver failed. -/
  | operation (mismatch : LengthMismatch)
  deriving DecidableEq, Repr

def SolveError.message : SolveError → String
  | notSquare rows columns => s!"matrix is not square: {rows}x{columns}"
  | dimensionMismatch expected found =>
    s!"vector of length {found} does not match a system of dimension {expected}"
  | operation mismatch => mismatch.message

/-- Programs that report solver events and may refuse a system. -/
abbrev Solve (S : Type) := EStateM SolveError (Array (SolverEvent S))

instance {S : Type} : MonadLift (Except LengthMismatch) (Solve S) where
  monadLift
    | .ok a => pure a
    | .error m => throw (.operation m)

/-- The conjugate gradient solver. -/
structure ConjugateGradient (S : Type) where
  /-- The norm of the residual at which the solver stops. -/
  tolerance : S
  /-- How many iterations the solver may do; `none` allows one for every unknown. -/
  limit : Option Nat

/-- An iterate and the direction along which it is to move by `step`. -/
structure SolverRecord (S : Type) where
  x : List S
  direction : List S
  step : S

/-- The outcome of a solver that was not refused its system. -/
structure Solution (S : Type) where
  x : List S
  iterations : Nat
  /-- The norm of the residual, as the solver keeps it. -/
  residualNorm : S
  /-- The last step; `0` if no iteration was done. -/
  step : S
  /-- Whether `residualNorm` is within the tolerance. -/
  converged : Bool

namespace ConjugateGradient

/-- A tolerance of `10⁻¹⁰` and the limit that goes with the dimension. -/
def standard {S : Type} [OfScientific S] : ConjugateGradient S where
  tolerance := 1e-10
  limit := none

/-- What the solver keeps from one iteration to the next. -/
structure State (S : Type) where
  x : List S
  /-- The residual `b - A x`. -/
  residual : List S
  direction : List S
  /-- The inner product of the residual with itself. -/
  residualSquared : S
  /-- The step of the iteration before; `0` at first. -/
  lastStep : S
  iterations : Nat
  history : Recorder (SolverRecord S)

/-- How an iteration ends. -/
inductive Progress (S : Type) where
  /-- The direction has no curvature, so there is no step along it. -/
  | stuck
  /-- The new residual is small enough. The direction is still the old one. -/
  | solved (s : State S)
  /-- There is a new direction. -/
  | moved (s : State S)

variable {S : Type} [Scalar S] (m : ConjugateGradient S)

/-- The norm of the residual. -/
def State.residualNorm (s : State S) : S := Scalar.sqrt s.residualSquared

/-- The residual is small enough. -/
def Converged (s : State S) : Prop := s.residualNorm ≤ m.tolerance

instance (s : State S) : Decidable (m.Converged s) :=
  inferInstanceAs (Decidable (_ ≤ _))

/-- Records the iterate with its direction and the step that is taken next. -/
def State.record (s : State S) (step : S) : Recorder (SolverRecord S) :=
  s.history.record { x := s.x, direction := s.direction, step }

/-- Puts an event into the log. -/
def report (e : SolverEvent S) : Solve S Unit :=
  modify (·.push e)

/-- Reports a curvature that a positive definite matrix does not have. -/
def warn (curvature : S) : Solve S Unit :=
  if curvature ≤ 0 then report (.nonPositiveCurvature curvature) else pure ()

/-- Moves along the direction, whose image under the matrix and whose curvature are known, and
turns the direction unless the new residual is small enough. -/
def move (s : State S) (image : List S) (curvature : S) : Solve S (Progress S) := do
  let lastStep := s.residualSquared / curvature
  let x ← Space.tryRay s.x s.direction lastStep
  let residual ← Space.tryRay s.residual image (-lastStep)
  let moved : State S := { s with
    x, residual, lastStep
    history := s.record lastStep
    residualSquared := Space.normSquared residual
    iterations := s.iterations + 1 }
  report (.iterated moved.iterations moved.residualNorm)
  if m.Converged moved then
    return .solved moved
  else
    let direction ←
      Space.tryCombine s.direction (moved.residualSquared / s.residualSquared) residual 1
    return .moved { moved with direction }

/-- One iteration. A direction of negative curvature is reported, but followed. -/
def step (a : DenseMatrix S) (s : State S) : Solve S (Progress S) := do
  let image ← a.tryApply s.direction (Space.origin s.x)
  let curvature ← Space.tryDot s.direction image
  warn curvature
  if curvature ≤ 0 ∧ curvature == 0 then
    return .stuck
  else
    m.move s image curvature

/-- At most `n` iterations. -/
def iterate (a : DenseMatrix S) : Nat → State S → Solve S (State S)
  | 0, s => return s
  | n + 1, s => do
    match ← m.step a s with
    | .stuck => return s
    | .solved s => return s
    | .moved s => iterate a n s

/-- At most `n` iterations; none if the residual is small enough. -/
def improve (a : DenseMatrix S) (n : Nat) (s : State S) : Solve S (State S) :=
  if m.Converged s then return s else m.iterate a n s

/-- The dimension of a system whose matrix is square and whose vectors fit it. -/
def checkShapes (a : DenseMatrix S) (b x : List S) : Except SolveError Nat :=
  if a.rowCount ≠ a.columnCount then .error (.notSquare a.rowCount a.columnCount)
  else if b.length ≠ a.rowCount then .error (.dimensionMismatch a.rowCount b.length)
  else if x.length ≠ a.rowCount then .error (.dimensionMismatch a.rowCount x.length)
  else .ok a.rowCount

/-- The state before the first iteration. -/
def start (a : DenseMatrix S) (b x : List S) (history : Recorder (SolverRecord S)) :
    Solve S (State S) := do
  let image ← a.tryApply x (Space.origin x)
  let residual ← Space.tryRay b image (-1)
  return {
    x, residual, history
    direction := residual
    residualSquared := Space.normSquared residual
    lastStep := 0
    iterations := 0 }

/-- Improves `x`, recording every iterate behind what `history` holds. -/
def run (a : DenseMatrix S) (b x : List S) (history : Recorder (SolverRecord S)) :
    Solve S (Solution S × Recorder (SolverRecord S)) := do
  let n ← checkShapes a b x
  let s ← start a b x history
  let s ← m.improve a (m.limit.getD n) s
  let converged : Bool := m.Converged s
  report (.finished converged s.iterations s.residualNorm)
  let solution : Solution S := {
    x := s.x
    iterations := s.iterations
    residualNorm := s.residualNorm
    step := s.lastStep
    converged }
  return (solution, s.record s.lastStep)

/-- Improves the guess `x` for a solution of `A x = b`. -/
def solve (a : DenseMatrix S) (b x : List S) : Solve S (Solution S) := do
  return (← m.run a b x none).1

/-- Improves the guess `x` and records every iterate behind what `history` holds. -/
def solveWithHistory (a : DenseMatrix S) (b x : List S) (history : Array (SolverRecord S)) :
    Solve S (Solution S × Array (SolverRecord S)) := do
  let (solution, history) ← m.run a b x (some history)
  return (solution, history.contents)

end ConjugateGradient

end Descent

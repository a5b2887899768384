import Descent.Recorder

/-!
# Evaluated points and results

* `Point V S`: a vector with the value and the gradient of the objective there.
* `Minimum V S`: what a minimizer returns, whether it converged or not.
* `Record V S`: what is kept of one iteration when a history is asked for.
-/

namespace Descent

/-- A vector `x` with the value and the gradient that one evaluation at `x` gave. -/
structure Point (V S : Type) where
  x : V
  value : S
  gradient : V
  deriving BEq

/-- The result of a minimization. A run that used up its iterations has one too. -/
structure Minimum (V S : Type) where
  point : Point V S
  iterations : Nat
  /-- Whether the norm of the gradient at `point` is within the tolerance. -/
  converged : Bool

/-- One iteration: the point before it, the step that was taken from there, and the points at
which the objective was evaluated, where a method collects them. -/
structure Record (V S : Type) where
  point : Point V S
  step : S
  samples : Array V

/-- The records of the iterations of a run, where they are asked for. -/
abbrev History (V S : Type) := Recorder (Record V S)

end Descent

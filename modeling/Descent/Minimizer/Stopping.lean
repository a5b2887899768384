import Descent.Objective
import Descent.Scalar

/-!
# When a minimizer stops

* `Stopping S`: the tolerance for the norm of the gradient and the limit of iterations, which all
  minimizers have.
* `Stopping.Converged`: the gradient at a point is short enough.
* `Stopping.budget`: the number of iterations that the limit allows.
* `Stopping.conclude`: the end of a run: its report and its result.
-/

namespace Descent

/-- The two things that stop a minimizer. -/
structure Stopping (S : Type) where
  /-- The norm of the gradient at which a run has converged. -/
  tolerance : S
  /-- How many iterations a run may do, if that does not go by the dimension. -/
  limit : Option Nat

namespace Stopping

/-- A tolerance of `10⁻⁵` and the limit that goes by the dimension. -/
def standard {S : Type} [OfScientific S] : Stopping S where
  tolerance := 1e-5
  limit := none

variable {σ V S : Type} [Scalar S] [Space V S] (stopping : Stopping S)

/-- The gradient is short enough. -/
def Converged (p : Point V S) : Prop := Space.norm p.gradient ≤ stopping.tolerance

instance (p : Point V S) : Decidable (stopping.Converged p) :=
  inferInstanceAs (Decidable (_ ≤ _))

/-- The number of iterations that a run from `x₀` may do; without a limit it is `perDimension` for
every dimension. -/
def budget (perDimension : Nat) (x₀ : V) : Nat :=
  stopping.limit.getD (perDimension * Space.dimension x₀)

/-- Ends a run at `p`, which is a result whether it converged or not. -/
def conclude (method : Method) (p : Point V S) (iterations : Nat) : Run σ V S (Minimum V S) := do
  let converged : Bool := stopping.Converged p
  note (.finished method converged iterations p.value)
  return { point := p, iterations, converged }

end Stopping

end Descent

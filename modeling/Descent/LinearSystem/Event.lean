import Descent.Log

/-!
# What the linear solver reports while it runs

* `SolverEvent S`: the things that happen, with their numbers.
* `SolverEvent.level`: iterations are traces, the end is a debug message, and a direction without
  positive curvature is a warning.
* `SolverEvent.text`: the wording, given the text of a scalar.
-/

namespace Descent

/-- A thing that happened while a linear system was solved. -/
inductive SolverEvent (S : Type) where
  /-- A direction `p` with `⟨p, A p⟩ ≤ 0`, which a positive definite matrix does not have. -/
  | nonPositiveCurvature (curvature : S)
  /-- An iteration was done. -/
  | iterated (iteration : Nat) (residualNorm : S)
  /-- The solver is done. -/
  | finished (converged : Bool) (iterations : Nat) (residualNorm : S)

namespace SolverEvent

variable {S : Type}

def level : SolverEvent S → Level
  | iterated .. => .trace
  | finished .. => .debug
  | nonPositiveCurvature _ => .warn

/-- The wording of an event, with scalars written by `render`. -/
def text (render : S → String) : SolverEvent S → String
  | nonPositiveCurvature curvature =>
    s!"linear CG: non-positive curvature {render curvature}, the matrix is not positive definite"
  | iterated iteration residualNorm =>
    s!"linear CG: iteration {iteration}, residual = {render residualNorm}"
  | finished converged iterations residualNorm =>
    s!"linear CG: {Log.ending converged} after {iterations} iterations, " ++
      s!"residual = {render residualNorm}"

end SolverEvent

end Descent

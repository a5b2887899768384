import Descent.Log
import Descent.StrongWolfe.Conditions

/-!
# What a minimization reports while it runs

* `Event S`: the things that happen, with their numbers.
* `Event.level`: single steps are traces, the ends of phases and of runs are debug messages.
* `Event.text`: the wording, given the text of a scalar.
-/

namespace Descent

/-- The methods that choose their steps by a line search. -/
inductive SearchMethod where
  | steepestDescent
  | conjugateGradient
  deriving DecidableEq

/-- The minimizers. -/
inductive Method where
  | fixedRate
  | searching (method : SearchMethod)
  deriving DecidableEq

namespace SearchMethod

def name : SearchMethod → String
  | steepestDescent => "line search descent"
  | conjugateGradient => "nonlinear CG"

/-- What a method does after a failed search, behind the report of the failure. -/
def onFailure : SearchMethod → String
  | steepestDescent => ""
  | conjugateGradient => ", restarting"

end SearchMethod

def Method.name : Method → String
  | fixedRate => "gradient descent"
  | searching m => m.name

/-- A thing that happened during a minimization. -/
inductive Event (S : Type) where
  /-- The line search evaluated a step. -/
  | trial (t : Trial S)
  /-- All doublings were used without a bracket; the search takes the last of them. -/
  | noBracket (doublings : Nat) (step : S)
  /-- All bisections were used without an acceptable step. -/
  | zoomFailed (bisections : Nat)
  /-- A step of fixed rate was done. -/
  | descended (iteration : Nat) (value : S)
  /-- The line search of an iteration found no step. -/
  | searchFailed (method : SearchMethod) (iteration : Nat)
  /-- An iteration with a line search was done. -/
  | searched (method : SearchMethod) (iteration : Nat) (value step : S)
  /-- The run is over. -/
  | finished (method : Method) (converged : Bool) (iterations : Nat) (value : S)

namespace Event

variable {S : Type}

def level : Event S → Level
  | trial _ | descended .. | searched .. => .trace
  | noBracket .. | zoomFailed _ | searchFailed .. | finished .. => .debug

/-- The wording of an event, with scalars written by `render`. -/
def text (render : S → String) : Event S → String
  | trial t =>
    s!"wolfe: a = {render t.step}, phi = {render t.value}, dphi = {render t.slope}"
  | noBracket doublings step =>
    s!"wolfe: no bracket after {doublings} doublings, taking a = {render step}"
  | zoomFailed bisections => s!"wolfe: zoom failed after {bisections} bisections"
  | descended iteration value =>
    s!"{Method.fixedRate.name}: iteration {iteration}, fx = {render value}"
  | searchFailed method iteration =>
    s!"{method.name}: line search failed in iteration {iteration}{method.onFailure}"
  | searched method iteration value step =>
    s!"{method.name}: iteration {iteration}, fx = {render value}, alpha = {render step}"
  | finished method converged iterations value =>
    s!"{method.name}: {Log.ending converged} after {iterations} iterations, fx = {render value}"

end Event

end Descent

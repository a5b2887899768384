import Descent.Event
import Descent.Point
import Descent.Space

/-!
# Objectives and runs

* `Objective σ V S`: a function to minimize. It is given a point and the old content of the
  gradient buffer, may read and change a state `σ` of its own, and answers with its value and the
  new content of the buffer.
* `Evaluation V S`: one call of an objective, with all that went in and came out.
* `Session σ V S`: what a minimization has left behind so far: the state of the objective, the
  evaluations in order, and the log. It survives a failed check.
* `Run σ V S`: programs that work on a session and may stop with a `LengthMismatch`.
* `evaluate`, `note`: the two ways in which a run changes its session.
-/

namespace Descent

/-- A function with a gradient: from a point and the old gradient buffer to the value and the new
gradient. -/
abbrev Objective (σ V S : Type) := V → V → StateM σ (S × V)

/-- A call of an objective. -/
structure Evaluation (V S : Type) where
  x : V
  /-- The content of the gradient buffer before the call. -/
  buffer : V
  value : S
  gradient : V

/-- What a minimization has left behind so far. -/
structure Session (σ V S : Type) where
  state : σ
  evaluations : Array (Evaluation V S) := #[]
  log : Array (Event S) := #[]

/-- Programs that evaluate an objective and report events. -/
abbrev Run (σ V S : Type) := EStateM LengthMismatch (Session σ V S)

variable {σ V S : Type}

/-- Calls the objective at `x` with the given buffer. -/
def evaluate (f : Objective σ V S) (x buffer : V) : Run σ V S (Point V S) := fun session =>
  let ((value, gradient), state) := (f x buffer).run session.state
  .ok { x, value, gradient }
    { session with
      state
      evaluations := session.evaluations.push { x, buffer, value, gradient } }

/-- The first evaluation of a run, whose buffer is a copy of the point. -/
def evaluateFirst (f : Objective σ V S) (x : V) : Run σ V S (Point V S) :=
  evaluate f x x

/-- Puts an event into the log. -/
def note (e : Event S) : Run σ V S Unit :=
  modify fun session => { session with log := session.log.push e }

/-- Puts an event into the log, if there is one. -/
def note? : Option (Event S) → Run σ V S Unit
  | some e => note e
  | none => pure ()

end Descent

import Descent.Objective
import Descent.StrongWolfe.Phase

/-!
# The strong Wolfe line search

* `Search V S`: the state of a line search: its phase, the point of the last trial, whose gradient
  is the buffer of the next one, and the points tried so far, if they are recorded.
* `probe`: one trial.
* `StrongWolfe.drive`: trials as long as a step is pending.
* `StrongWolfe.search`: a whole search along a direction. The step it finds is `Search.step`; it
  is `0` where none was found, and then `Search.next` is a point that was rejected.
-/

namespace Descent

/-- A line search under way, or at its end. -/
structure Search (V S : Type) where
  phase : Phase S
  next : Point V S
  samples : Recorder V

variable {σ V S : Type} [Scalar S]

/-- The step of a search that has ended. -/
def Search.step (s : Search V S) : S := s.phase.step

variable [Space V S]

/-- Evaluates the objective at the step `a` along the direction: the trial and the point. -/
def probe (f : Objective σ V S) (direction : V) (current : Point V S) (a : S) (buffer : V) :
    Run σ V S (Trial S × Point V S) := do
  let x ← Space.tryRay current.x direction a
  let next ← evaluate f x buffer
  let slope ← Space.tryDot next.gradient direction
  let t : Trial S := { step := a, value := next.value, slope }
  note (.trial t)
  return (t, next)

namespace StrongWolfe

/-- Makes trials until no step is pending. -/
def drive (rule : StrongWolfe S) (f : Objective σ V S) (direction : V) (current : Point V S)
    (start : Slice S) (s : Search V S) : Run σ V S (Search V S) :=
  match _h : s.phase.pending rule with
  | none => pure s
  | some a => do
    let (t, next) ← probe f direction current a s.next.gradient
    drive rule f direction current start
      { phase := s.phase.advance rule start t, next, samples := s.samples.record next.x }
termination_by s.phase.remaining rule
decreasing_by exact Phase.remaining_advance _h t

/-- Searches along `direction` from `current` for a step that satisfies both conditions, trying
`first` before all others. The point `next` lends its gradient as the first buffer, and is the
point of a search that makes no trial at all. -/
def search (rule : StrongWolfe S) (f : Objective σ V S) (direction : V) (current next : Point V S)
    (first : S) (samples : Recorder V) : Run σ V S (Search V S) := do
  let slope ← Space.tryDot current.gradient direction
  let start : Slice S := { value := current.value, slope }
  let s ← rule.drive f direction current start
    { phase := .initial start first, next, samples }
  note? s.phase.closing
  return s

end StrongWolfe

end Descent

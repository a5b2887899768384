import Descent.Minimizer.Stopping
import Descent.StrongWolfe.Search

/-!
# The nonlinear conjugate gradient method of Polak and Ribière

`PolakRibiere.minimize` searches along directions `p` that start as the negative gradient. After a
move from the gradient `g` to the gradient `g'` the next direction is `β p - g'` with
`β = ⟨g' - g, g'⟩ / ⟨g, g⟩`, but at least zero. After a failed search the point stays and the
direction is the negative gradient again.

* `PolakRibiere S`: the line search, its first step and when to stop.
* `PolakRibiere.State`: the state between two iterations.
* `PolakRibiere.run`: a whole run, with a history that is on or off: one record for every
  iteration, and one of the result.
-/

namespace Descent

/-- The conjugate gradient method with directions whose `β` is never negative. -/
structure PolakRibiere (S : Type) where
  lineSearch : StrongWolfe S
  /-- The step that the first search, and every search after a failed one, tries first. -/
  firstStep : S
  /-- Without a limit a run may do twenty iterations for every dimension. -/
  stopping : Stopping S

namespace PolakRibiere

/-- The standard search and a first step of one. -/
def standard {S : Type} [One S] [OfScientific S] : PolakRibiere S where
  lineSearch := StrongWolfe.standard
  firstStep := 1
  stopping := .standard

/-- What a run knows between two iterations. -/
structure State (V S : Type) where
  current : Point V S
  /-- The point that the last search or the last move left behind; its gradient is the next
  buffer. -/
  spare : Point V S
  direction : V
  /-- The step that the next search tries first. -/
  nextStep : S
  /-- The step of the last search; `0` before the first. -/
  lastStep : S
  iterations : Nat
  history : History V S

variable {σ V S : Type} [Scalar S] [Space V S] (m : PolakRibiere S)

/-- The direction after a move from the gradient `old` to the gradient `new`. -/
def turn (direction old new : V) : Except LengthMismatch V := do
  let change ← Space.tryRay new old (-1)
  let overlap ← Space.tryDot change new
  let β := Scalar.positivePart (overlap / Space.normSquared old)
  Space.tryCombine direction β new (-1)

/-- Counts and records an iteration whose search has found `step`. -/
def State.count (s : State V S) (step : S) : State V S :=
  { s with
    lastStep := step
    iterations := s.iterations + 1
    history := s.history.record { point := s.current, step, samples := #[] } }

/-- A new beginning from the point where a search has failed. -/
def restart (s : State V S) (found : Search V S) : Run σ V S (State V S) := do
  note (.searchFailed .conjugateGradient s.iterations)
  return { s with
    spare := found.next
    direction := Space.scale s.current.gradient (-1)
    nextStep := m.firstStep }

/-- The move to the point that a search has found, with a new direction. -/
def move (s : State V S) (found : Search V S) : Run σ V S (State V S) := do
  let direction ← turn s.direction s.current.gradient found.next.gradient
  return { s with
    current := found.next
    spare := s.current
    direction
    nextStep := found.step }

/-- What follows a search: a move, or a new beginning if it has found no step. -/
def follow (s : State V S) (found : Search V S) : Run σ V S (State V S) :=
  if found.step == 0 then m.restart s found else move s found

/-- One search and what follows it. -/
def step (f : Objective σ V S) (s : State V S) : Run σ V S (State V S) := do
  let found ← m.lineSearch.search f s.direction s.current s.spare s.nextStep none
  let s ← m.follow (s.count found.step) found
  note (.searched .conjugateGradient s.iterations s.current.value s.lastStep)
  return s

/-- At most `n` further iterations. -/
def iterate (f : Objective σ V S) : Nat → State V S → Run σ V S (State V S)
  | 0, s => return s
  | n + 1, s =>
    if m.stopping.Converged s.current then return s
    else do iterate f n (← m.step f s)

/-- Runs from `x₀`, recording every iteration and the result behind what `history` holds. -/
def run (f : Objective σ V S) (x₀ : V) (history : History V S) :
    Run σ V S (Minimum V S × History V S) := do
  let current ← evaluateFirst f x₀
  let s ← m.iterate f (m.stopping.budget 20 x₀) {
    current, spare := current, history
    direction := Space.scale current.gradient (-1)
    nextStep := m.firstStep
    lastStep := 0
    iterations := 0 }
  let history := s.history.record { point := s.current, step := s.lastStep, samples := #[] }
  let minimum ← m.stopping.conclude (.searching .conjugateGradient) s.current s.iterations
  return (minimum, history)

/-- Minimizes `f` from `x₀`. -/
def minimize (f : Objective σ V S) (x₀ : V) : Run σ V S (Minimum V S) := do
  return (← m.run f x₀ none).1

/-- Minimizes `f` from `x₀` and records every iteration and the result behind what `history`
holds. -/
def minimizeWithHistory (f : Objective σ V S) (x₀ : V) (history : Array (Record V S)) :
    Run σ V S (Minimum V S × Array (Record V S)) := do
  let (minimum, history) ← m.run f x₀ (some history)
  return (minimum, history.contents)

end PolakRibiere

end Descent

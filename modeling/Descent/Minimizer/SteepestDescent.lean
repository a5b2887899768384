import Descent.Minimizer.Stopping
import Descent.StrongWolfe.Search

/-!
# Steepest descent with a line search

`SteepestDescent.minimize` searches along the negative gradient, moves to the point that the
search accepts, and goes on until the gradient is short enough, the iterations are used up or a
search fails. Every search starts with the step that the one before has found.

* `SteepestDescent S`: the line search, its first step and when to stop.
* `SteepestDescent.State`: the state between two iterations.
* `SteepestDescent.run`: a whole run, with a history that is on or off. A record of the history
  lists all points at which the objective was evaluated in its iteration, the first record also
  the start.
-/

namespace Descent

/-- Descent along the negative gradient, with steps from a line search. -/
structure SteepestDescent (S : Type) where
  lineSearch : StrongWolfe S
  /-- The step that the first search tries first. -/
  firstStep : S
  /-- Without a limit a run may do a hundred iterations for every dimension. -/
  stopping : Stopping S

namespace SteepestDescent

/-- The standard search with `c₁ = 10⁻³` and a first step of one. -/
def standard {S : Type} [One S] [OfScientific S] : SteepestDescent S where
  lineSearch := { StrongWolfe.standard with c₁ := 1e-3 }
  firstStep := 1
  stopping := .standard

/-- What a run knows between two iterations. -/
structure State (V S : Type) where
  current : Point V S
  /-- The point that the last search or the last move left behind; its gradient is the next
  buffer. -/
  spare : Point V S
  /-- The step that the next search tries first, the last one found. -/
  lastStep : S
  iterations : Nat
  /-- The points that were evaluated before the next search and are in no record yet. -/
  unlisted : Array V
  history : History V S

variable {σ V S : Type} [Scalar S] [Space V S] (m : SteepestDescent S)

/-- Counts and records an iteration with its search. -/
def State.count (s : State V S) (found : Search V S) : State V S :=
  { s with
    spare := found.next
    lastStep := found.step
    iterations := s.iterations + 1
    unlisted := #[]
    history := s.history.record
      { point := s.current, step := found.step, samples := found.samples.contents } }

/-- What follows a search: the move to the point it has found. After a failed search the point
stays, since the search has ended at a point that it rejected. -/
def follow (s : State V S) (found : Search V S) : Run σ V S (State V S) :=
  if found.step == 0 then do
    note (.searchFailed .steepestDescent s.iterations)
    return s
  else do
    note (.searched .steepestDescent s.iterations found.next.value found.step)
    return { s with current := found.next, spare := s.current }

/-- One search and what follows it. Its points are recorded if a history is. -/
def step (f : Objective σ V S) (s : State V S) : Run σ V S (State V S) := do
  let direction := Space.scale s.current.gradient (-1)
  let samples : Recorder V := s.history.map fun _ => s.unlisted
  let found ← m.lineSearch.search f direction s.current s.spare s.lastStep samples
  follow (s.count found) found

/-- At most `n` further iterations; none after a failed search. -/
def iterate (f : Objective σ V S) : Nat → State V S → Run σ V S (State V S)
  | 0, s => return s
  | n + 1, s =>
    if m.stopping.Converged s.current then return s
    else do
      let s ← m.step f s
      if s.lastStep == 0 then return s
      else iterate f n s

/-- Runs from `x₀`, recording every iteration behind what `history` holds. -/
def run (f : Objective σ V S) (x₀ : V) (history : History V S) :
    Run σ V S (Minimum V S × History V S) := do
  let current ← evaluateFirst f x₀
  let s ← m.iterate f (m.stopping.budget 100 x₀) {
    current, spare := current, history
    lastStep := m.firstStep
    iterations := 0
    unlisted := #[x₀] }
  let minimum ← m.stopping.conclude (.searching .steepestDescent) s.current s.iterations
  return (minimum, s.history)

/-- Minimizes `f` from `x₀`. -/
def minimize (f : Objective σ V S) (x₀ : V) : Run σ V S (Minimum V S) := do
  return (← m.run f x₀ none).1

/-- Minimizes `f` from `x₀` and records every iteration behind what `history` holds. -/
def minimizeWithHistory (f : Objective σ V S) (x₀ : V) (history : Array (Record V S)) :
    Run σ V S (Minimum V S × Array (Record V S)) := do
  let (minimum, history) ← m.run f x₀ (some history)
  return (minimum, history.contents)

end SteepestDescent

end Descent

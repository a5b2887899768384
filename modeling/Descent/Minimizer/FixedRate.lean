import Descent.Minimizer.Stopping

/-!
# Descent at a fixed rate

`FixedRate.minimize` repeats `x := x - rate ∇f(x)` until the gradient is short enough or the
iterations are used up. The point is evaluated after every step, so the result is always an
evaluated point.

* `FixedRate S`: the rate and when to stop.
* `FixedRate.State`: the state between two steps. All its points are recorded (`FixedRate.arrive`).
* `FixedRate.run`: a whole run, with a history that is on or off.
-/

namespace Descent

/-- Descent along the negative gradient, at a rate that never changes. -/
structure FixedRate (S : Type) where
  rate : S
  /-- Without a limit a run may do a hundred steps for every dimension. -/
  stopping : Stopping S

namespace FixedRate

/-- A rate of a thousandth. -/
def standard {S : Type} [OfScientific S] : FixedRate S where
  rate := 0.001
  stopping := .standard

/-- What a run knows between two steps. -/
structure State (V S : Type) where
  current : Point V S
  iterations : Nat
  history : History V S

variable {σ V S : Type} [Scalar S] [Space V S] (m : FixedRate S)

/-- The state at a point that was just evaluated, and is recorded. -/
def arrive (current : Point V S) (iterations : Nat) (history : History V S) : State V S where
  current
  iterations
  history := history.record { point := current, step := m.rate, samples := #[] }

/-- One step and the evaluation behind it. -/
def step (f : Objective σ V S) (s : State V S) : Run σ V S (State V S) := do
  let x ← Space.tryRay s.current.x s.current.gradient (-m.rate)
  let current ← evaluate f x s.current.gradient
  let iterations := s.iterations + 1
  note (.descended iterations current.value)
  return m.arrive current iterations s.history

/-- At most `n` further steps. -/
def iterate (f : Objective σ V S) : Nat → State V S → Run σ V S (State V S)
  | 0, s => return s
  | n + 1, s =>
    if m.stopping.Converged s.current then return s
    else do iterate f n (← m.step f s)

/-- Runs from `x₀`, recording every evaluated point behind what `history` holds. -/
def run (f : Objective σ V S) (x₀ : V) (history : History V S) :
    Run σ V S (Minimum V S × History V S) := do
  let current ← evaluateFirst f x₀
  let s ← m.iterate f (m.stopping.budget 100 x₀) (m.arrive current 0 history)
  let minimum ← m.stopping.conclude .fixedRate s.current s.iterations
  return (minimum, s.history)

/-- Minimizes `f` from `x₀`. -/
def minimize (f : Objective σ V S) (x₀ : V) : Run σ V S (Minimum V S) := do
  return (← m.run f x₀ none).1

/-- Minimizes `f` from `x₀` and records every evaluated point behind what `history` holds. -/
def minimizeWithHistory (f : Objective σ V S) (x₀ : V) (history : Array (Record V S)) :
    Run σ V S (Minimum V S × Array (Record V S)) := do
  let (minimum, history) ← m.run f x₀ (some history)
  return (minimum, history.contents)

end FixedRate

end Descent

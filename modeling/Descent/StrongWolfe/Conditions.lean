import Descent.Scalar

/-!
# The strong Wolfe conditions

Along a direction `p` from a point `x` the objective `f` has the slice `φ t = f (x + t p)`.

* `Slice`: the value `φ 0` and the slope `φ' 0`.
* `Trial`: a step `a` with `φ a` and `φ' a`.
* `StrongWolfe.SufficientDecrease`: `φ a ≤ φ 0 + c₁ a φ' 0`.
* `StrongWolfe.FlatEnough`: `|φ' a| ≤ -c₂ φ' 0`.

Both are comparisons of scalars, hence decidable, and false where a side is not a number.
-/

namespace Descent

/-- Where a line search starts: the value and the slope of the slice at `0`. -/
structure Slice (S : Type) where
  value : S
  slope : S

/-- A step with the value and the slope of the slice there. -/
structure Trial (S : Type) where
  step : S
  value : S
  slope : S

/-- The constants of the two conditions and the budgets of the search: how many steps it may try
while doubling, and how many bisections of a bracket it may try then. -/
structure StrongWolfe (S : Type) where
  c₁ : S
  c₂ : S
  doublings : Nat
  bisections : Nat

namespace StrongWolfe

variable {S : Type}

/-- `c₁ = 10⁻⁶`, `c₂ = 1/10`, ten doublings and sixteen bisections. -/
def standard [OfScientific S] : StrongWolfe S where
  c₁ := 1e-6
  c₂ := 0.1
  doublings := 10
  bisections := 16

variable [Scalar S] (rule : StrongWolfe S) (start : Slice S) (t : Trial S)

/-- The value lies on or below the line through the start with `c₁` times its slope. -/
def SufficientDecrease : Prop :=
  t.value ≤ start.value + rule.c₁ * t.step * start.slope

/-- The slope is at most `c₂` times as steep as at the start. -/
def FlatEnough : Prop :=
  Scalar.abs t.slope ≤ -rule.c₂ * start.slope

instance : Decidable (rule.SufficientDecrease start t) :=
  inferInstanceAs (Decidable (_ ≤ _))

instance : Decidable (rule.FlatEnough start t) :=
  inferInstanceAs (Decidable (_ ≤ _))

end StrongWolfe

end Descent

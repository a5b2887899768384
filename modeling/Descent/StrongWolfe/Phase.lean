import Descent.Event

/-!
# The phases of a line search

A line search alternates between choosing a step and looking at the trial made there. Its choices
depend on the trials alone, so they form a machine of pure functions:

* `Phase S`: what the search knows. It first doubles the step until it has a bracket, then
  bisects the bracket, and stops at a step that it accepts.
* `Phase.pending`: the step to try next, if the budgets allow one.
* `Phase.advance`: the phase after a trial. It does not look at the budgets.
* `Phase.step`, `Phase.closing`: the step to take and the event to report once nothing is pending.
* `Phase.remaining`: how many trials may still follow; every trial lowers it
  (`Phase.remaining_advance`).
-/

namespace Descent

/-- Two steps between which an acceptable step is sought. They are not ordered: `low` is the end
with the lower value, which is `lowValue`. -/
structure Bracket (S : Type) where
  low : S
  high : S
  lowValue : S

/-- The middle of a bracket. -/
def Bracket.midpoint {S : Type} [Scalar S] (b : Bracket S) : S :=
  (b.low + b.high) / (1 + 1)

/-- What a line search knows between two trials. -/
inductive Phase (S : Type) where
  /-- After `count` doublings `next` is to be tried; the step before it, or else the start of the
  search, is `last`, with the value `lastValue`. -/
  | bracketing (count : Nat) (next last lastValue : S)
  /-- The bracket after `count` bisections. -/
  | zooming (count : Nat) (bracket : Bracket S)
  /-- The step satisfies both conditions. -/
  | accepted (step : S)

namespace Phase

variable {S : Type} [Scalar S]

/-- A search that is to try `first` before all else. -/
def initial (start : Slice S) (first : S) : Phase S :=
  bracketing 0 first 0 start.value

/-- The step to try next; none after an accepted step and where a budget is used up. -/
def pending (rule : StrongWolfe S) : Phase S → Option S
  | bracketing count next _ _ => if count < rule.doublings then some next else none
  | zooming count bracket => if count < rule.bisections then some bracket.midpoint else none
  | accepted _ => none

/-- The phase after the trial `t`.

While the step is doubled, a trial that does not decrease the value enough, or not below the trial
before, closes a bracket with that trial as the low end; a trial whose slope is flat enough is
accepted; one with a rising slope closes a bracket as its low end.

A bisection replaces the high end by a trial that does not decrease the value enough or is not
below the low end. Any other trial is accepted if its slope is flat enough, and else becomes the
low end, with that old end as the high end from which the slope points away. -/
def advance (rule : StrongWolfe S) (start : Slice S) : Phase S → Trial S → Phase S
  | bracketing count _ last lastValue, t =>
    if ¬rule.SufficientDecrease start t ∨ (0 < count ∧ lastValue ≤ t.value) then
      zooming 0 { low := last, high := t.step, lowValue := lastValue }
    else if rule.FlatEnough start t then accepted t.step
    else if 0 ≤ t.slope then zooming 0 { low := t.step, high := last, lowValue := t.value }
    else bracketing (count + 1) (t.step + t.step) t.step t.value
  | zooming count b, t =>
    if ¬rule.SufficientDecrease start t ∨ b.lowValue ≤ t.value then
      zooming (count + 1) { b with high := t.step }
    else if rule.FlatEnough start t then accepted t.step
    else
      let high := if 0 ≤ t.slope * (b.high - b.low) then b.low else b.high
      zooming (count + 1) { low := t.step, high, lowValue := t.value }
  | accepted step, _ => accepted step

/-- The step that a search takes when it stops: the accepted one, the last one of a search
without a bracket, and `0` where a bracket was found but no acceptable step in it. -/
def step : Phase S → S
  | bracketing _ _ last _ => last
  | zooming _ _ => 0
  | accepted step => step

/-- What there is to report of a search that stops without an accepted step. -/
def closing : Phase S → Option (Event S)
  | bracketing count _ last _ => some (.noBracket count last)
  | zooming count _ => some (.zoomFailed count)
  | accepted _ => none

/-- An upper bound for the number of trials that may follow. -/
def remaining (rule : StrongWolfe S) : Phase S → Nat
  | bracketing count _ _ _ => rule.doublings - count + rule.bisections
  | zooming count _ => rule.bisections - count
  | accepted _ => 0

/-- A trial at a pending step leaves fewer trials than there were. -/
theorem remaining_advance {rule : StrongWolfe S} {start : Slice S} {phase : Phase S} {a : S}
    (h : phase.pending rule = some a) (t : Trial S) :
    (phase.advance rule start t).remaining rule < phase.remaining rule := by
  cases phase with
  | bracketing count next last lastValue =>
    have hc : count < rule.doublings := by
      by_cases hc : count < rule.doublings
      · exact hc
      · simp [pending, hc] at h
    simp only [advance]
    split
    · simp only [remaining]; omega
    split
    · simp only [remaining]; omega
    split <;> simp only [remaining] <;> omega
  | zooming count b =>
    have hc : count < rule.bisections := by
      by_cases hc : count < rule.bisections
      · exact hc
      · simp [pending, hc] at h
    simp only [advance]
    split
    · simp only [remaining]; omega
    split <;> simp only [remaining] <;> omega
  | accepted step => simp [pending] at h

end Phase

end Descent

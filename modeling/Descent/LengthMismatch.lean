/-!
# Checks of lengths

* `LengthMismatch`: two lengths that were to agree and do not, with its report, which may name what
  was checked (`LengthMismatch.messageAbout`).
* `requireEqual`: the check.
* A check can be made inside any program with a state: where it fails, the program stops and its
  state stays as it is.
-/

namespace Descent

/-- Two lengths that do not agree. -/
structure LengthMismatch where
  left : Nat
  right : Nat
  deriving DecidableEq, Repr

namespace LengthMismatch

/-- The two lengths, each on a line of its own. -/
def lengths (m : LengthMismatch) : String :=
  s!"\n  left: {m.left}\n right: {m.right}"

/-- The report of a failed check. -/
def message (m : LengthMismatch) : String :=
  s!"assertion `left == right` failed{m.lengths}"

/-- The report of a failed check that names its subject. -/
def messageAbout (subject : String) (m : LengthMismatch) : String :=
  s!"assertion `left == right` failed: {subject}{m.lengths}"

end LengthMismatch

/-- Passes exactly when two lengths agree. -/
def requireEqual (left right : Nat) : Except LengthMismatch Unit :=
  if left = right then .ok () else .error ⟨left, right⟩

theorem requireEqual_of_eq {m n : Nat} (h : m = n) : requireEqual m n = .ok () :=
  if_pos h

theorem requireEqual_of_ne {m n : Nat} (h : m ≠ n) : requireEqual m n = .error ⟨m, n⟩ :=
  if_neg h

/-- A failed check stops a program and leaves its state as it is. -/
instance liftCheck {ε σ : Type} : MonadLift (Except ε) (EStateM ε σ) where
  monadLift
    | .ok a => pure a
    | .error e => throw e

end Descent

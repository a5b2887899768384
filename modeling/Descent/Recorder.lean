/-!
# Recorders

A `Recorder α` collects values while something runs. It is either off, and then ignores what it is
given, or holds all that it was given, in order, behind what it held before.
-/

namespace Descent

/-- What was recorded so far; nothing at all while recording is off. -/
abbrev Recorder (α : Type) := Option (Array α)

namespace Recorder

variable {α : Type}

/-- Puts a value at the end. -/
def record (r : Recorder α) (a : α) : Recorder α :=
  r.map (·.push a)

/-- The recorded values. -/
def contents (r : Recorder α) : Array α :=
  r.getD #[]

@[simp] theorem record_none (a : α) : record none a = none := rfl

@[simp] theorem record_some (xs : Array α) (a : α) : record (some xs) a = some (xs.push a) := rfl

@[simp] theorem contents_none : contents (none : Recorder α) = #[] := rfl

@[simp] theorem contents_some (xs : Array α) : contents (some xs) = xs := rfl

end Recorder

end Descent

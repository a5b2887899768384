/-!
# Logs

A log is the array of the events of a run, in order. Every event has a `Level` and a text.

* `Level.admits`: a reader names the least severe level of interest and sees that level and those
  above it.
* `Log.lines`: the lines of a log for such a reader.
* `Log.ending`: the word for the end of a run, shared by all methods.
-/

namespace Descent

/-- How much an event matters, from the least to the most severe. -/
inductive Level where
  | trace
  | debug
  | warn
  deriving DecidableEq, Repr

namespace Level

def severity : Level → Nat
  | trace => 0
  | debug => 1
  | warn => 2

/-- The name that stands before the text of an event. -/
def name : Level → String
  | trace => "TRACE"
  | debug => "DEBUG"
  | warn => "WARN"

/-- `least.admits l`: events of level `l` are shown to a reader who asks for `least`. -/
def admits (least l : Level) : Bool :=
  least.severity ≤ l.severity

end Level

namespace Log

/-- The level and the text of every event that a reader who asks for `least` is shown. -/
def lines {E : Type} (level : E → Level) (text : E → String) (least : Level) (log : Array E) :
    Array String :=
  (log.filter fun e => least.admits (level e)).map fun e => s!"{(level e).name} {text e}"

/-- How a run has ended. -/
def ending (converged : Bool) : String :=
  if converged then "converged" else "stopped"

end Log

end Descent

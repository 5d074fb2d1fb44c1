import TimedTasks.Time.Duration
/-!
How serious an error is, and what a caller may do about it.
-/

namespace TimedTasks

/-- How serious an error is, the least serious first. -/
inductive Severity where
  /-- An expected outcome. -/
  | info
  /-- Worth watching. -/
  | warning
  /-- Asks for action. -/
  | error
  /-- Asks for action at once. -/
  | critical
deriving DecidableEq, Repr

namespace Severity

def text : Severity → String
  | info => "INFO"
  | warning => "WARNING"
  | error => "ERROR"
  | critical => "CRITICAL"

def compare (a b : Severity) : Ordering := Ord.compare a.ctorIdx b.ctorIdx

end Severity

/-- What a caller may conclude from an error without looking into it. -/
structure Advice where
  /-- A later attempt may succeed. -/
  retryable : Bool
  severity : Severity
  /-- Something that should never happen did happen. -/
  critical : Bool := false
  /-- How long to wait before the next attempt. -/
  retryAfter : Option Duration := none
deriving DecidableEq

end TimedTasks

import TimedTasks.Error.TaskError
/-!
How tasks end, how an executor's life goes, and the words for both.
-/

namespace TimedTasks

/-- How a task ended, without its value or cause. -/
inductive Ending where
  | completed | failed | cancelled
deriving DecidableEq, Repr

namespace Ending

def text : Ending → String
  | completed => "completed"
  | failed => "failed"
  | cancelled => "cancelled"

/-- The word for the ending in records. -/
def label : Ending → String
  | completed => "Completed"
  | failed => "Failed"
  | cancelled => "Cancelled"

/-- An ending, or its absence, in records. -/
def optionLabel : Option Ending → String
  | none => "None"
  | some e => "Some(" ++ e.label ++ ")"

end Ending

/-- How a task ended. -/
inductive Outcome (V : Type) where
  /-- The body ended with a value, or without one. -/
  | completed (value : Option V)
  | failed (cause : Cause)
  | cancelled

namespace Outcome

variable {V : Type}

def ending : Outcome V → Ending
  | completed _ => .completed
  | failed _ => .failed
  | cancelled => .cancelled

/-- What a reader of a task's future gets. -/
def read : Outcome V → Except TaskError (Option V)
  | completed value => .ok value
  | failed cause => .error (.execution cause)
  | cancelled => .error .cancelled

end Outcome

/-- How a run of a body ended. -/
inductive RunEnd (V : Type) where
  | returned (value : Option V)
  | failed (cause : Cause)
  /-- The run was not allowed to start, or was given up. -/
  | stopped
  | panicked

/-- The life of an executor, which only moves forward. -/
inductive Lifecycle where
  /-- Accepts tasks. -/
  | running
  /-- Shut down; accepted tasks are still under way. -/
  | draining
  /-- Shut down, and every accepted task has ended. -/
  | terminated
deriving DecidableEq, Repr

namespace Lifecycle

def text : Lifecycle → String
  | running => "running"
  | draining => "draining"
  | terminated => "terminated"

/-- The word for the state in records. -/
def label : Lifecycle → String
  | running => "Running"
  | draining => "Draining"
  | terminated => "Terminated"

end Lifecycle

/-- How a task was handed in, which decides what a shutdown does to it. -/
inductive ChildKind where
  | immediate | delayed | periodic
deriving DecidableEq, Repr

/-- The word for the kind in records. -/
def ChildKind.label : ChildKind → String
  | immediate => "Immediate"
  | delayed => "Delayed"
  | periodic => "Periodic"

end TimedTasks

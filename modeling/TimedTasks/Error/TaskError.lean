import TimedTasks.Error.Fault
/-!
What goes wrong when tasks are handed in, run and waited for, and the causes with which a task's
body fails. A body may fail with any error, also with one that it got from another task, so errors
and causes nest.
-/

namespace TimedTasks

mutual

/-- What a call on an executor, or on the future of a task, may report. -/
inductive TaskError where
  /-- The executor was shut down before the task was handed in. -/
  | rejected (executor : String)
  /-- The body of the task failed. -/
  | execution (cause : Cause)
  /-- The task was cancelled before it had a result. -/
  | cancelled
  /-- A bounded wait ended first. -/
  | timeout (after : Duration)
  | invalidArgument (message : String)
  | config (message : String)

/-- What the body of a task failed with. -/
inductive Cause where
  | text (message : String)
  | fault (f : Fault)
  | error (e : TaskError)

end

mutual

def TaskError.message : TaskError → String
  | .rejected executor => "Task rejected: executor '" ++ executor ++ "' is shut down"
  | .execution cause => "Task failed: " ++ cause.message
  | .cancelled => "Task was cancelled"
  | .timeout after => "Timed out after " ++ after.text
  | .invalidArgument message => "Invalid argument: " ++ message
  | .config message => "Executor configuration error: " ++ message

def Cause.message : Cause → String
  | .text message => message
  | .fault f => f.message
  | .error e => e.message

end

mutual

/-- The messages of what lies below an error, the nearest first. -/
def TaskError.sources : TaskError → List String
  | .execution cause => cause.message :: cause.sources
  | _ => []

def Cause.sources : Cause → List String
  | .error e => e.sources
  | _ => []

end

namespace TaskError

/-- The short name of the kind of error. -/
def kind : TaskError → String
  | rejected .. => "rejected"
  | execution .. => "execution"
  | cancelled => "cancelled"
  | timeout .. => "timeout"
  | invalidArgument .. => "invalid_argument"
  | config .. => "config"

/-- The cause of a failed task. -/
def cause? : TaskError → Option Cause
  | execution cause => some cause
  | _ => none

def advice : TaskError → Advice
  | timeout .. => ⟨true, .warning, false, none⟩
  | rejected .. => ⟨false, .warning, false, none⟩
  | cancelled => ⟨false, .info, false, none⟩
  | execution .. | invalidArgument .. | config .. => ⟨false, .error, false, none⟩

/-- A general fault as an executor reports it. -/
def ofFault : Fault → TaskError
  | .timeout _ after => timeout after
  | .taskCancelled .. => cancelled
  | f@(.validation ..) => invalidArgument f.message
  | f@(.config ..) | f@(.serialization ..) | f@(.internal ..) => config f.message

end TaskError

instance : Inhabited TaskError := ⟨.cancelled⟩
instance : Inhabited Cause := ⟨.text ""⟩

end TimedTasks

import TimedTasks.Error.Severity
import TimedTasks.Time.DurationText
/-!
Faults that are not about running a task: bad settings, bad input, a wait that took too long, an
inner inconsistency.
-/

namespace TimedTasks

/-- A general fault. The optional part of each says where it arose. -/
inductive Fault where
  | config (message : String) (field : Option String)
  | serialization (message : String) (format : Option String)
  | timeout (operation : String) (after : Duration)
  | validation (field message : String) (value : Option String)
  | internal (message : String) (context : Option String)
  | taskCancelled (task : String) (reason : Option String)
deriving DecidableEq

namespace Fault

/-- The short name of the kind of fault. -/
def kind : Fault → String
  | config .. => "config"
  | serialization .. => "serialization"
  | timeout .. => "timeout"
  | validation .. => "validation"
  | internal .. => "internal"
  | taskCancelled .. => "task_cancelled"

def message : Fault → String
  | config message none => "Configuration error: " ++ message
  | config message (some field) =>
    "Configuration error in field '" ++ field ++ "': " ++ message
  | serialization message none => "Serialization error: " ++ message
  | serialization message (some format) =>
    "Serialization error (" ++ format ++ "): " ++ message
  | timeout operation after =>
    "Operation '" ++ operation ++ "' timed out after " ++ after.text
  | validation field message none =>
    "Validation error for field '" ++ field ++ "': " ++ message
  | validation field message (some value) =>
    "Validation error for field '" ++ field ++ "' (value: '" ++ value ++ "'): " ++ message
  | internal message none => "Internal error: " ++ message
  | internal message (some context) => "Internal error in '" ++ context ++ "': " ++ message
  | taskCancelled task none => "Task '" ++ task ++ "' cancelled"
  | taskCancelled task (some reason) => "Task '" ++ task ++ "' cancelled: " ++ reason

def advice : Fault → Advice
  | config .. | serialization .. | validation .. => ⟨false, .error, false, none⟩
  | timeout .. => ⟨true, .warning, false, none⟩
  | internal .. => ⟨false, .critical, true, none⟩
  | taskCancelled .. => ⟨false, .info, false, none⟩

end Fault

end TimedTasks

import TimedTasks.Executor.Outcome
import TimedTasks.Executor.Plan
/-!
What executors report about themselves while they work, and the form of each report: a level, a
message and named fields. A call that is followed from its start to its end is reported as a span
under its own name.
-/

namespace TimedTasks

inductive Level where
  | trace | debug | info | warn | span
deriving DecidableEq, Repr

def Level.text : Level → String
  | trace => "TRACE"
  | debug => "DEBUG"
  | info => "INFO"
  | warn => "WARN"
  | span => "SPAN"

/-- The value of a field of a report. -/
inductive Field where
  | number (n : Nat)
  | text (s : String)
deriving DecidableEq, Repr

structure Report where
  level : Level
  message : String
  fields : List (String × Field)
deriving DecidableEq, Repr

/-- Something worth reporting. -/
inductive Notice where
  | executorCreated (executor : String)
  | rejected (executor : String) (state : Lifecycle)
  | childStarted (executor : String) (id : Nat) (kind : ChildKind)
  | childFinished (executor : String) (id : Nat) (kind : ChildKind) (ending : Option Ending)
  /-- A task whose value nobody wanted failed. -/
  | unwantedFailed (executor : String) (cause : Cause)
  | firing (executor : String) (run : Nat) (pace : Pace)
  | periodicFailed (executor : String) (run : Nat) (cause : Cause)
  | shuttingDown
  | cancelledByPolicy (id : Nat) (kind : ChildKind)
  | shutDownNow (cancelled : Nat)
  | terminated (executor : String)
  | cancelledUpFront
  | invokeAllTimedOut (cancelled : Nat)
  | invokeAnyTimedOut (bound : Duration)
  | clockAdvanced (step elapsed : Duration)
  | shutdownCalled (executor : String)
  | shutdownNowCalled (executor : String)
  | repeatingCalled (executor : String) (initial : Duration) (pace : Pace)
  | awaitTerminationCalled (executor : String) (bound : Duration)
  | invokeAllCalled (executor : String) (tasks : Nat) (bound : Option Duration)
  | invokeAnyCalled (executor : String) (tasks : Nat) (bound : Option Duration)

namespace Notice

/-- A bound, or its absence, in reports. -/
def boundText : Option Duration → String
  | none => "None"
  | some d => "Some(" ++ d.text ++ ")"

def report : Notice → Report
  | executorCreated e => ⟨.debug, "Executor created", [("executor", .text e)]⟩
  | rejected e s => ⟨.warn, "Task rejected", [("executor", .text e), ("state", .text s.text)]⟩
  | childStarted e id kind =>
    ⟨.debug, "Child started",
      [("executor", .text e), ("task_id", .number id), ("kind", .text kind.label)]⟩
  | childFinished e id kind ending =>
    ⟨.debug, "Child finished",
      [("executor", .text e), ("task_id", .number id), ("kind", .text kind.label),
        ("outcome", .text (Ending.optionLabel ending))]⟩
  | unwantedFailed e cause =>
    ⟨.warn, "Fire-and-forget task failed",
      [("executor", .text e), ("error", .text cause.message)]⟩
  | firing e run pace =>
    ⟨.debug, "Periodic task firing",
      [("executor", .text e), ("run", .number run), ("cadence", .text pace.text)]⟩
  | periodicFailed e run cause =>
    ⟨.debug, "Periodic task failed",
      [("executor", .text e), ("run", .number run), ("error", .text cause.message)]⟩
  | shuttingDown => ⟨.info, "Executor shutting down", []⟩
  | cancelledByPolicy id kind =>
    ⟨.debug, "Cancelled by shutdown policy",
      [("task_id", .number id), ("kind", .text kind.label)]⟩
  | shutDownNow n => ⟨.info, "Executor shut down immediately", [("cancelled", .number n)]⟩
  | terminated e => ⟨.info, "Executor terminated", [("executor", .text e)]⟩
  | cancelledUpFront => ⟨.debug, "Zero timeout, cancelling every task up front", []⟩
  | invokeAllTimedOut n => ⟨.warn, "invoke_all timed out", [("cancelled", .number n)]⟩
  | invokeAnyTimedOut bound =>
    ⟨.warn, "invoke_any timed out", [("duration", .text bound.text)]⟩
  | clockAdvanced d elapsed =>
    ⟨.trace, "Mock clock advanced", [("by", .text d.text), ("elapsed", .text elapsed.text)]⟩
  | shutdownCalled e => ⟨.span, "shutdown", [("executor", .text e)]⟩
  | shutdownNowCalled e => ⟨.span, "shutdown_now", [("executor", .text e)]⟩
  | repeatingCalled e initial (.fixedRate period) =>
    ⟨.span, "schedule_at_fixed_rate",
      [("executor", .text e), ("initial_delay", .text initial.text),
        ("period", .text period.text)]⟩
  | repeatingCalled e initial (.fixedDelay delay) =>
    ⟨.span, "schedule_with_fixed_delay",
      [("executor", .text e), ("initial_delay", .text initial.text),
        ("delay", .text delay.text)]⟩
  | awaitTerminationCalled e bound =>
    ⟨.span, "await_termination", [("executor", .text e), ("timeout", .text bound.text)]⟩
  | invokeAllCalled e tasks bound =>
    ⟨.span, "invoke_all",
      [("executor", .text e), ("tasks", .number tasks), ("timeout", .text (boundText bound))]⟩
  | invokeAnyCalled e tasks bound =>
    ⟨.span, "invoke_any",
      [("executor", .text e), ("tasks", .number tasks), ("timeout", .text (boundText bound))]⟩

end Notice

end TimedTasks

/-!
Calls that have no answer: a number left its range, or a name stands for nothing.
-/

namespace TimedTasks

/-- Why a call broke off. -/
inductive Panic where
  /-- A sum of counters left the 64-bit range. -/
  | sumOverflow
  /-- A sum of durations is too long. -/
  | durationOverflow
  /-- A point in time is too late to be represented. -/
  | instantOverflow
  | unknownFuture (name : String)
  | unknownExecutor (name : String)
  /-- A condition did not come true in time. -/
  | assertion (message : String)
deriving DecidableEq, Repr

def Panic.message : Panic → String
  | sumOverflow => "attempt to add with overflow"
  | durationOverflow => "overflow when adding durations"
  | instantOverflow => "overflow when adding duration to instant"
  | unknownFuture name => "no future " ++ name
  | unknownExecutor name => "no executor " ++ name
  | assertion message => message

end TimedTasks

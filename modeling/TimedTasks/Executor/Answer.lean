import TimedTasks.Error.Panic
import TimedTasks.Executor.Outcome
import TimedTasks.Executor.Stats
import TimedTasks.Settings.Basic
import TimedTasks.Time.Duration
/-!
What calls answer, and the log of what tasks and waiters did.
-/

namespace TimedTasks

/-- What a future shows of itself. -/
structure FutureView where
  done : Bool
  cancelled : Bool
  ending : Option Ending
  debug : String
deriving DecidableEq, Repr

/-- What an executor shows of itself. -/
structure ExecutorView where
  name : String
  state : Lifecycle
  debug : String
  /-- The time on the executor's clock. -/
  time : Instant
deriving DecidableEq, Repr

/-- How two futures compare by their due times. -/
structure Comparison where
  order : Ordering
  /-- Whether both are due at the same time. -/
  same : Bool
  /-- The order found by looking at the second one as something that has a delay. -/
  delayed : Ordering
  /-- Whether both are futures of one kind, so that `order` means something. -/
  alike : Bool
deriving DecidableEq, Repr

/-- What a call answers. -/
inductive Answer (V : Type) where
  | done
  /-- There was nothing of that name to act on. -/
  | absent
  /-- A thread waits for what was asked. -/
  | parked
  | settings (s : Settings)
  | error (e : TaskError)
  | panic (p : Panic)
  | flag (b : Bool)
  | lifecycle (shutdown terminated : Bool)
  /-- As `lifecycle`, with the number of tasks handed back unstarted. -/
  | halted (unstarted : Nat) (shutdown terminated : Bool)
  | future (v : FutureView)
  | delay (amount : Int)
  | delays (amounts : List Int)
  | time (t : Instant)
  | order (o : Ordering)
  | comparison (c : Comparison)
  | names (l : List String)
  | read (r : Except TaskError (Option V))
  /-- What each future of a list yields, nothing for one that is not settled. -/
  | reads (l : List (Option (Except TaskError (Option V))))
  | executor (v : ExecutorView)
  | stats (s : Stats)

/-- Something that a task or a waiter did. -/
inductive Event (V : Type) where
  | started | woke | succeeded | failed | panicked
  /-- A body was given up before its end. -/
  | dropped
  | answered (a : Answer V)

/-- An event with its time and the name of the one who did it. -/
structure Entry (V : Type) where
  time : Instant
  who : String
  event : Event V

end TimedTasks

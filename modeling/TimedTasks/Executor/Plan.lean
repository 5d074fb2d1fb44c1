import TimedTasks.Error.TaskError
import TimedTasks.Time.Unit
/-!
What tasks do, written as data: the steps of a body, and the calls that a body or a caller outside
makes on executors and futures. Executors, futures and waiters are meant by name. Values are of any
type; a task may also yield none.
-/

namespace TimedTasks

/-- When a periodic task is due again. -/
inductive Pace where
  /-- A period after it was due, or at once where that has passed. -/
  | fixedRate (period : Duration)
  /-- A pause after it ended. -/
  | fixedDelay (delay : Duration)
deriving DecidableEq

namespace Pace

def interval : Pace → Duration
  | fixedRate period => period
  | fixedDelay delay => delay

/-- The next due time of a task that was due at `due` and ended at `now`. -/
def next? (p : Pace) (due now : Instant) : Option Instant :=
  match p with
  | fixedRate period => (Instant.after? due period).map (max · now)
  | fixedDelay delay => Instant.after? now delay

/-- The pace as reports show it. -/
def text : Pace → String
  | fixedRate period => "FixedRate(" ++ period.text ++ ")"
  | fixedDelay delay => "FixedDelay(" ++ delay.text ++ ")"

end Pace

mutual

/-- One step of a task's body. -/
inductive Step (V : Type) where
  /-- Waits on the clock. -/
  | sleep (d : Duration)
  /-- Makes a call and notes its answer. -/
  | act (c : Call V)
  /-- Waits for a future and notes what it yields. -/
  | get (future : String)
  /-- Waits for a future and notes what it yields; an error of the future ends the body. -/
  | join (future : String)
  /-- Ends the body with a value. -/
  | ok (value : Option V)
  /-- Ends the body with a failure. -/
  | err (cause : Cause)
  /-- Breaks the body off. -/
  | panic
  /-- Waits for ever. -/
  | pending

/-- What a task runs. -/
inductive Body (V : Type) where
  /-- A body that breaks off before its first step, when it is made. -/
  | broken
  /-- The steps in order; a body that runs out of steps ends without a value. -/
  | steps (s : List (Step V))

/-- A call on an executor, a future or a waiter. It takes effect at once and runs no task. -/
inductive Call (V : Type) where
  /-- Builds an executor from a settings document and single choices on top of it. -/
  | create (executor : String) (document name : Option String)
    (keepPeriodic keepDelayed : Option Bool)
  /-- Hands in a task whose value nobody wants. -/
  | execute (executor task : String) (body : Body V)
  /-- Hands in a task; `instead` is a value to yield in place of the body's own. -/
  | submit (executor future : String) (instead : Option (Option V)) (body : Body V)
  /-- Hands in a task that runs once after a delay. -/
  | schedule (executor future : String) (delay : Duration) (body : Body V)
  /-- Hands in a task that runs again and again; the last body serves for all later runs. -/
  | repeating (executor future : String) (pace : Pace) (initial : Duration) (runs : List (Body V))
  | cancel (future : String) (interrupt : Bool)
  /-- Gives a future a second name. -/
  | share (future name : String)
  /-- Gives a future a second name under which its due time is not seen. -/
  | shareTask (future name : String)
  | forget (future : String)
  | inspect (future : String)
  | delay (future : String) (unit : Option TimeUnit)
  | dueTime (future : String)
  | compare (a b : String)
  /-- Compares with something else that is due after a fixed amount, or at a fixed time. -/
  | compareFixed (future : String) (amount : Int) (unit : TimeUnit) (due : Option Duration)
  | sort (futures : List String)
  /-- Starts a waiter that notes what a future yields, within a bound if there is one. -/
  | get (waiter future : String) (bound : Option Duration)
  | awaitTermination (waiter executor : String) (bound : Duration)
  /-- Starts a waiter that runs all of several tasks. -/
  | invokeAll (waiter executor : String) (bodies : List (Body V)) (bound : Option Duration)
  /-- Starts a waiter that runs several tasks for the first value. -/
  | invokeAny (waiter executor : String) (bodies : List (Body V)) (bound : Option Duration)
  | abort (waiter : String)
  /-- Reads a future from a thread of its own, which is parked until there is something to read. -/
  | blockingGet (thread future : String)
  | threadJoin (thread : String)
  | shutdown (executor : String)
  | shutdownNow (executor : String)
  | lifecycle (executor : String)
  | describe (executor : String)
  | stats (executor : String)

end

instance {V : Type} : Inhabited (Step V) := ⟨.pending⟩
instance {V : Type} : Inhabited (Body V) := ⟨.steps []⟩
instance {V : Type} : Inhabited (Call V) := ⟨.forget ""⟩

end TimedTasks

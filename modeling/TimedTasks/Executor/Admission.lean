import TimedTasks.Executor.Settlement
/-!
Handing tasks in. A running executor admits a task: it gets a cell, a number and a place in the
registry, is counted as submitted, and is made ready for its first turn. Any other executor rejects
it, which only the counter of rejections shows.
-/

namespace TimedTasks.World

variable {V : Type}

/-- Makes an executor, and tells where it is. -/
def addExecutor (w : World V) (settings : Settings) : World V × Nat :=
  let x : Executor := { settings, origin := w.now }
  ({ w with executors := w.executors ++ [x] }.report (.executorCreated settings.name),
    w.executors.length)

def stateOf? (w : World V) (e : Nat) : Option Lifecycle := w.executors[e]?.map (·.state)

def isRunning (w : World V) (e : Nat) : Bool := w.stateOf? e == some .running

def originOf (w : World V) (e : Nat) : Instant := (w.executors[e]?.map (·.origin)).getD 0

/-- Counts and reports a rejection. -/
def reject (w : World V) (e : Nat) : World V × TaskError :=
  let name := w.nameOf e
  let state := (w.stateOf? e).getD .terminated
  (((w.modifyExecutor e fun x =>
      { x with counters := { x.counters with rejected := x.counters.rejected + 1 } }).report
    (.rejected name state)), .rejected name)

/-- Gives an executor a child, with a new cell, and tells where the cell is. -/
def addChild (w : World V) (e : Nat) (name : String) (work : Work V) (mark : Option Mark) :
    World V × Nat :=
  let (w, c) := w.addCell { mark }
  let i := w.children.length
  let id := (w.executors[e]?.map (·.nextId)).getD 0
  let child : Child V := { executor := e, id, cell := c, name, work }
  let w := { w with children := w.children ++ [child] }
  let w := w.modifyExecutor e fun x =>
    { x with
      registry := x.registry ++ [i]
      tracked := x.tracked + 1
      nextId := x.nextId + 1
      counters := { x.counters with submitted := x.counters.submitted + 1 } }
  (w.enqueue (.child i), c)

/-- Admits a task, or rejects it. -/
def enrol (w : World V) (e : Nat) (name : String) (work : Work V) (mark : Option Mark) :
    World V × Except TaskError Nat :=
  if w.isRunning e then
    let (w, c) := w.addChild e name work mark
    (w, .ok c)
  else
    let (w, err) := w.reject e
    (w, .error err)

/-- Hands in a task that runs once. -/
def submit (w : World V) (e : Nat) (name : String) (yield : Yield V) (body : Body V) :
    World V × Except TaskError Nat :=
  w.enrol e name (.once yield body) none

/-- A delay after which the time cannot be represented. -/
def delayTooLarge (d : Duration) : TaskError :=
  .invalidArgument ("delay " ++ d.text ++ " is too large to schedule")

/-- Hands in a task that runs once after a delay. -/
def schedule (w : World V) (e : Nat) (name : String) (delay : Duration) (body : Body V) :
    World V × Except TaskError Nat :=
  match Instant.after? w.now delay with
  | none => (w, .error (delayTooLarge delay))
  | some due => w.enrol e name (.delayed due body) (some (.ofInstant (w.originOf e) due))

/-- A pace at which a task would be due again at once. -/
def paceIsZero : Pace → TaskError
  | .fixedRate _ => .invalidArgument "period must be greater than zero"
  | .fixedDelay _ => .invalidArgument "delay must be greater than zero"

/-- Hands in a task that runs again and again, first after a delay. -/
def scheduleRepeating (w : World V) (e : Nat) (name : String) (pace : Pace) (initial : Duration)
    (runs : List (Body V)) : World V × Except TaskError Nat :=
  let w := w.report (.repeatingCalled (w.nameOf e) initial pace)
  if pace.interval.isZero then (w, .error (paceIsZero pace))
  else
    match Instant.after? w.now initial with
    | none => (w, .error (delayTooLarge initial))
    | some due => w.enrol e name (.periodic pace runs) (some (.ofInstant (w.originOf e) due))

end TimedTasks.World

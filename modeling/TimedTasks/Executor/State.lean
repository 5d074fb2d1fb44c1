import TimedTasks.Executor.Answer
import TimedTasks.Executor.Notice
/-!
The state of a run: executors, the children they were given, the cells in which results settle,
waiters, batches, and the two lists that say which tasks may go on and which wait.

A *task* is whatever takes turns: a child of an executor, a waiter, or the watcher that announces
an executor's termination. At any moment a task that has not ended is in `ready`, in `waiting`, or
is the one whose turn it is. Everything is kept in lists in the order in which it came into being,
and is referred to by its position.
-/

namespace TimedTasks

/-- The clock of a run. -/
structure Clock where
  /-- The clock jumps over everything between two readings; else it stops at each whole
  millisecond at which a task is due. -/
  jumps : Bool
  elapsed : Duration := .zero
deriving DecidableEq

/-- Whether a body of a future may start. -/
inductive Phase where
  | idle
  /-- A run of the body is under way. -/
  | running
  /-- No run may start any more. -/
  | closed
deriving DecidableEq, Repr

/-- A due time, kept as nanoseconds after the executor was made, in a 64-bit word. -/
structure Mark where
  origin : Instant
  offset : Nat
deriving DecidableEq, Repr

namespace Mark

/-- The mark for a due time; one too far after the origin is brought forward to the last word. -/
def ofInstant (origin due : Instant) : Mark := ⟨origin, min (due - origin) (UInt64.size - 1)⟩

/-- The due time that a mark stands for. -/
def due (m : Mark) : Instant := m.origin + m.offset

end Mark

/-- Where the result of a task settles, once. -/
structure Cell (V : Type) where
  outcome : Option (Outcome V) := none
  phase : Phase := .idle
  /-- Cancellation was signalled to the task. -/
  token : Bool := false
  /-- When the task is next due, if it is delayed or periodic. -/
  mark : Option Mark := none

/-- What a suspended body waits for, besides being cancelled. -/
inductive Wait where
  | time (t : Instant)
  /-- The settlement of a cell; `joined` tells whether its error ends the body. -/
  | cell (c : Nat) (joined : Bool)
  | forever
deriving DecidableEq, Repr

/-- What becomes of the value of a task that runs once. -/
inductive Yield (V : Type) where
  /-- Nobody wants the value; a failure is reported. -/
  | unwanted
  /-- The future yields the body's value. -/
  | own
  /-- The future yields a value of its own. -/
  | instead (value : Option V)

/-- What a child was handed in to do. -/
inductive Work (V : Type) where
  | once (yield : Yield V) (body : Body V)
  | delayed (due : Instant) (body : Body V)
  | periodic (pace : Pace) (runs : List (Body V))
  /-- One of a batch whose caller waits for all. -/
  | oneOfAll (batch : Nat) (body : Body V)
  /-- One of a batch whose caller waits for the first value. -/
  | oneOfAny (batch : Nat) (body : Body V)

def Work.kind {V : Type} : Work V → ChildKind
  | once .. | oneOfAll .. | oneOfAny .. => .immediate
  | delayed .. => .delayed
  | periodic .. => .periodic

/-- How far a child has come. -/
inductive Stage (V : Type) where
  /-- It has not had a turn. -/
  | created
  /-- It waits for its time. -/
  | scheduled (due : Instant)
  /-- Its body is suspended. -/
  | suspended (on : Wait) (rest : List (Step V))
  /-- Its next time cannot be represented, so it only waits to be cancelled. -/
  | stranded
  | ended

/-- A task that an executor was given. -/
structure Child (V : Type) where
  executor : Nat
  /-- Its number among the children of its executor, from one. -/
  id : Nat
  cell : Nat
  name : String
  work : Work V
  stage : Stage V := .created
  /-- How many runs of a periodic task have started. -/
  runs : Nat := 0

/-- What a waiter waits for, besides its bound. -/
inductive Awaited where
  | cell (c : Nat)
  | termination (executor : Nat)
  | batch (b : Nat)
deriving DecidableEq, Repr

/-- What a waiter was asked for. -/
inductive Request (V : Type) where
  | get (cell : Nat) (bound : Option Duration)
  | termination (executor : Nat) (bound : Duration)
  | invokeAll (executor : Nat) (bodies : List (Body V)) (bound : Option Duration)
  | invokeAny (executor : Nat) (bodies : List (Body V)) (bound : Option Duration)

inductive WaiterStage where
  | created
  /-- It waits, until the deadline if there is one. -/
  | waiting (on : Awaited) (deadline : Option Instant)
  | ended
deriving DecidableEq, Repr

structure Waiter (V : Type) where
  name : String
  request : Request V
  stage : WaiterStage := .created

/-- Children that were handed in by one call, which waits for them. -/
structure Batch (V : Type) where
  /-- Their cells, in the order of the call. -/
  cells : List Nat
  /-- How many have not ended. -/
  remaining : Nat
  /-- The caller may go on. -/
  notified : Bool := false
  /-- The first value, where the caller asked for one. -/
  winner : Option (Option V) := none
  /-- The most recent failure, where the caller asked for a value. -/
  lastFailure : Option Cause := none

structure Executor where
  settings : Settings
  /-- When it was made. -/
  origin : Instant
  state : Lifecycle := .running
  /-- The children that have not ended, in the order of admission. -/
  registry : List Nat := []
  /-- How many children still hold up its termination. -/
  tracked : Nat := 0
  /-- No child comes in any more, so that the last one to end lets it terminate. -/
  closed : Bool := false
  /-- The number of the next child. -/
  nextId : Nat := 1
  counters : Counters := {}

/-- Something that befell a task or an executor. A task is meant by its cell. -/
inductive Happening (V : Type) where
  /-- The body of a task was made for a run. -/
  | called (c : Nat)
  /-- The body of a task was let go on. -/
  | polled (c : Nat)
  | ended (c : Nat) (r : RunEnd V)
  /-- A request to cancel a task was granted. -/
  | cancelled (c : Nat)
  /-- Someone asked for a shutdown of an executor. -/
  | asked (e : Nat)
  | draining (e : Nat)
  | terminated (e : Nat)

/-- What takes turns. -/
inductive TaskRef where
  | child (i : Nat)
  | waiter (j : Nat)
  /-- The watcher for the termination of an executor. -/
  | watcher (e : Nat)
deriving DecidableEq, Repr

/-- What kind of future a name stands for. -/
inductive HandleKind where
  | plain | delayed | periodic
deriving DecidableEq, Repr

structure Handle where
  cell : Nat
  kind : HandleKind
deriving DecidableEq, Repr

/-- Things by name. -/
abbrev Names (α : Type) := List (String × α)

namespace Names

variable {α : Type}

def get? (l : Names α) (name : String) : Option α := List.lookup name l

def erase (l : Names α) (name : String) : Names α := l.filter fun p => p.1 != name

def put (l : Names α) (name : String) (a : α) : Names α := l.erase name ++ [(name, a)]

end Names

structure World (V : Type) where
  clock : Clock
  executors : List Executor := []
  cells : List (Cell V) := []
  children : List (Child V) := []
  waiters : List (Waiter V) := []
  batches : List (Batch V) := []
  /-- The tasks that may go on, the first to go first. -/
  ready : List TaskRef := []
  /-- The tasks that wait, in the order in which they began to wait. -/
  waiting : List TaskRef := []
  executorNames : Names Nat := []
  futureNames : Names Handle := []
  waiterNames : Names Nat := []
  threadNames : Names Nat := []
  /-- Everything that tasks and waiters did, the earliest first. -/
  log : List (Entry V) := []
  /-- Everything that was reported, the earliest first. -/
  notices : List Notice := []
  /-- What befell tasks and executors, and when, the earliest first. -/
  history : List (Instant × Happening V) := []

namespace World

variable {V : Type}

/-- The run before anything has happened. -/
def start (jumps : Bool) : World V := { clock := { jumps } }

def now (w : World V) : Instant := w.clock.elapsed.nanos

def outcomeOf (w : World V) (c : Nat) : Option (Outcome V) := w.cells[c]?.bind (·.outcome)

def isSettled (w : World V) (c : Nat) : Bool := (w.outcomeOf c).isSome

def isSignalled (w : World V) (c : Nat) : Bool := (w.cells[c]?.map (·.token)).getD false

def modifyCell (w : World V) (c : Nat) (f : Cell V → Cell V) : World V :=
  { w with cells := w.cells.modify c f }

def modifyChild (w : World V) (i : Nat) (f : Child V → Child V) : World V :=
  { w with children := w.children.modify i f }

def modifyWaiter (w : World V) (j : Nat) (f : Waiter V → Waiter V) : World V :=
  { w with waiters := w.waiters.modify j f }

def modifyBatch (w : World V) (b : Nat) (f : Batch V → Batch V) : World V :=
  { w with batches := w.batches.modify b f }

def modifyExecutor (w : World V) (e : Nat) (f : Executor → Executor) : World V :=
  { w with executors := w.executors.modify e f }

/-- Notes what a task or waiter did. -/
def note (w : World V) (who : String) (event : Event V) : World V :=
  { w with log := w.log ++ [⟨w.now, who, event⟩] }

def report (w : World V) (n : Notice) : World V := { w with notices := w.notices ++ [n] }

def record (w : World V) (h : Happening V) : World V :=
  { w with history := w.history ++ [(w.now, h)] }

def nameOf (w : World V) (e : Nat) : String := (w.executors[e]?.map (·.settings.name)).getD ""

end World

end TimedTasks

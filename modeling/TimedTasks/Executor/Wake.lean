import TimedTasks.Executor.State
/-!
Who goes on when something happens. A waiting task is moved to the end of `ready` by the event that
it waits for; tasks woken by one event keep the order in which they began to wait.
-/

namespace TimedTasks.World

variable {V : Type}

/-- Puts a task at the end of those that may go on. -/
def enqueue (w : World V) (r : TaskRef) : World V := { w with ready := w.ready ++ [r] }

/-- Puts a task at the end of those that wait. -/
def suspend (w : World V) (r : TaskRef) : World V := { w with waiting := w.waiting ++ [r] }

/-- Lets the waiting tasks that satisfy `p` go on. -/
def wake (w : World V) (p : TaskRef → Bool) : World V :=
  { w with
    ready := w.ready ++ w.waiting.filter p
    waiting := w.waiting.filter fun r => !p r }

def stageOf? (w : World V) (i : Nat) : Option (Stage V) := w.children[i]?.map (·.stage)

def waiterStage? (w : World V) (j : Nat) : Option WaiterStage := w.waiters[j]?.map (·.stage)

/-- The cell for whose settlement a task waits. -/
def awaitedCell? (w : World V) : TaskRef → Option Nat
  | .child i =>
    match w.stageOf? i with
    | some (.suspended (.cell c _) _) => some c
    | _ => none
  | .waiter j =>
    match w.waiterStage? j with
    | some (.waiting (.cell c) _) => some c
    | _ => none
  | .watcher _ => none

/-- The time until which a task waits. -/
def deadline? (w : World V) : TaskRef → Option Instant
  | .child i =>
    match w.stageOf? i with
    | some (.scheduled due) => some due
    | some (.suspended (.time t) _) => some t
    | _ => none
  | .waiter j =>
    match w.waiterStage? j with
    | some (.waiting _ deadline) => deadline
    | _ => none
  | .watcher _ => none

/-- Whether a task is the child whose result settles in a cell. -/
def ownsCell (w : World V) (c : Nat) : TaskRef → Bool
  | .child i => w.children[i]?.map (·.cell) == some c
  | _ => false

/-- Whether a task is a waiter for something other than a cell. -/
def awaits (w : World V) (on : Awaited) : TaskRef → Bool
  | .waiter j =>
    match w.waiterStage? j with
    | some (.waiting on' _) => on' == on
    | _ => false
  | _ => false

/-- Whether the time until which a task waits has come. -/
def isDue (w : World V) (r : TaskRef) : Bool :=
  match w.deadline? r with
  | some t => t ≤ w.now
  | none => false

/-- The settlement of a cell wakes those who wait for it. -/
def wakeReaders (w : World V) (c : Nat) : World V := w.wake fun r => w.awaitedCell? r == some c

/-- The signal to a cell's task wakes that task, whatever it waits for. -/
def wakeOwner (w : World V) (c : Nat) : World V := w.wake (w.ownsCell c)

/-- A movement of the clock wakes those whose time has come. -/
def wakeDue (w : World V) : World V := w.wake w.isDue

def wakeBatch (w : World V) (b : Nat) : World V := w.wake (w.awaits (.batch b))

def wakeTermination (w : World V) (e : Nat) : World V := w.wake (w.awaits (.termination e))

def wakeWatcher (w : World V) (e : Nat) : World V := w.wake (· == .watcher e)

end TimedTasks.World

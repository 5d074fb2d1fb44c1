import TimedTasks.Executor.Wake
/-!
Cells settle once. A cell is settled by its task, with a value or a failure, or by a cancellation;
whatever comes later changes nothing. `cancel` answers `true` exactly when it settled the cell.
-/

namespace TimedTasks.World

variable {V : Type}

/-- Settles a cell, if it is not settled, and wakes its readers. -/
def settle (w : World V) (c : Nat) (o : Outcome V) : World V :=
  if w.isSettled c then w
  else (w.modifyCell c fun cell => { cell with outcome := some o }).wakeReaders c

/-- Signals cancellation to the task of a cell. -/
def signal (w : World V) (c : Nat) : World V :=
  if w.isSignalled c then w
  else (w.modifyCell c fun cell => { cell with token := true }).wakeOwner c

/-- Whether a request to cancel is granted: the cell is not settled, and either the request may
interrupt a run or no run is under way. -/
def cancellable (w : World V) (c : Nat) (interrupt : Bool) : Bool :=
  match w.cells[c]? with
  | none => false
  | some cell => cell.outcome.isNone && (interrupt || cell.phase == .idle)

/-- Cancels a task, if that is granted: no run starts any more, the cell is settled, and the task
is told. -/
def cancel (w : World V) (c : Nat) (interrupt : Bool) : World V × Bool :=
  if w.cancellable c interrupt then
    let w := w.modifyCell c fun cell => { cell with phase := .closed }
    (((w.settle c .cancelled).signal c).record (.cancelled c), true)
  else (w, false)

/-- Cancels the tasks of several cells, by interruption, and counts those that were. -/
def cancelAll (w : World V) : List Nat → World V × Nat
  | [] => (w, 0)
  | c :: cs =>
    let (w, granted) := w.cancel c true
    let (w, n) := w.cancelAll cs
    (w, n + granted.toNat)

/-- Whether a run of a body may start. -/
def mayStart (w : World V) (c : Nat) : Bool :=
  match w.cells[c]? with
  | none => false
  | some cell => cell.phase == .idle && cell.outcome.isNone

/-- Notes that a run is under way. -/
def beginRun (w : World V) (c : Nat) : World V :=
  w.modifyCell c fun cell => { cell with phase := .running }

/-- Notes that no run is under way, unless none may start any more. -/
def endRun (w : World V) (c : Nat) : World V :=
  w.modifyCell c fun cell =>
    { cell with phase := if cell.phase = .running then .idle else cell.phase }

/-- Adds a cell, and tells where it is. -/
def addCell (w : World V) (cell : Cell V) : World V × Nat :=
  ({ w with cells := w.cells ++ [cell] }, w.cells.length)

end TimedTasks.World

import TimedTasks.Executor.Shutdown
/-!
What futures and executors show of themselves: outcomes, delays, due times and their order. Nothing
here changes the state of a run.
-/

namespace TimedTasks.World

variable {V : Type}

def markOf? (w : World V) (c : Nat) : Option Mark := w.cells[c]?.bind (·.mark)

def endingOf (w : World V) (c : Nat) : Option Ending := (w.outcomeOf c).map (·.ending)

/-- The nanoseconds until a mark is due, negative once it is overdue. -/
def delayNanos (w : World V) (m : Mark) : Int :=
  if w.now ≤ m.due then wide (m.due - w.now) else -wide (w.now - m.due)

/-- The time until a mark is due, in a unit. -/
def delayIn (w : World V) (m : Mark) (u : TimeUnit) : Int := u.ofNanos (w.delayNanos m)

/-- A future as a record with named fields. -/
def futureDebug (w : World V) (h : Handle) : String :=
  let outcome := Ending.optionLabel (w.endingOf h.cell)
  match h.kind, w.markOf? h.cell with
  | .plain, _ | _, none => "TaskFuture \x7b outcome: " ++ outcome ++ " \x7d"
  | _, some m =>
    "ScheduledFuture \x7b outcome: " ++ outcome ++ ", delay_ms: " ++
      toString (w.delayIn m .milliseconds) ++ " \x7d"

def futureView (w : World V) (h : Handle) : FutureView where
  done := w.isSettled h.cell
  cancelled := w.endingOf h.cell == some .cancelled
  ending := w.endingOf h.cell
  debug := w.futureDebug h

/-- The mark of a future that shows its due time. -/
def handleMark? (w : World V) (h : Handle) : Option Mark :=
  match h.kind with
  | .plain => none
  | _ => w.markOf? h.cell

/-- Looks a future up by name. -/
def future (w : World V) (name : String) : Except Panic Handle :=
  match w.futureNames.get? name with
  | some h => .ok h
  | none => .error (.unknownFuture name)

/-- Looks up a future that shows its due time. -/
def timed (w : World V) (name : String) : Except Panic (Handle × Mark) := do
  let h ← w.future name
  match w.handleMark? h with
  | some m => return (h, m)
  | none => throw (.unknownFuture name)

def executor (w : World V) (name : String) : Except Panic Nat :=
  match w.executorNames.get? name with
  | some e => .ok e
  | none => .error (.unknownExecutor name)

/-- Two marks in the order of their due times. -/
def compareMarks (a b : Mark) : Ordering := compare a.due b.due

/-- Compares a mark with something else: by its due time where it has one, else by the delays of
both in nanoseconds. -/
def compareDelayed (w : World V) (m : Mark) (delay : Int) (due : Option Instant) : Ordering :=
  match due with
  | some t => compare m.due t
  | none => compare (w.delayIn m .nanoseconds) delay

def compareFutures (w : World V) (a b : String) : Except Panic Comparison := do
  let (ha, ma) ← w.timed a
  let (hb, mb) ← w.timed b
  return {
    order := compareMarks ma mb
    same := ma.due == mb.due
    delayed := w.compareDelayed ma (w.delayIn mb .nanoseconds) (some mb.due)
    alike := (ha.kind == .periodic) == (hb.kind == .periodic) }

/-- Compares a future with something that is due after `amount` units, or at a given time after
the start of the clock. -/
def compareFixed (w : World V) (name : String) (amount : Int) (unit : TimeUnit)
    (due : Option Duration) : Except Panic Ordering := do
  let (_, m) ← w.timed name
  let delay := TimeUnit.nanoseconds.convert amount unit
  match due with
  | none => return w.compareDelayed m delay none
  | some d =>
    match Instant.after? 0 d with
    | some t => return w.compareDelayed m delay (some t)
    | none => throw .instantOverflow

/-- The names of some futures, those due first in front; of those due at once, the order is kept. -/
def sorted (w : World V) (names : List String) : Except Panic (List String) := do
  let marks ← names.mapM fun n => return (n, (← w.timed n).2)
  return (marks.mergeSort fun a b => a.2.due ≤ b.2.due).map (·.1)

def statsOf (w : World V) (e : Nat) : Stats :=
  match w.executors[e]? with
  | some x => x.counters.snapshot
  | none => {}

/-- The counters of an executor as a record with named fields. -/
def statsDebug (s : Stats) : String :=
  "ExecutorStats \x7b submitted: " ++ toString s.submitted ++ ", completed: " ++
    toString s.completed ++ ", failed: " ++ toString s.failed ++ ", cancelled: " ++
    toString s.cancelled ++ ", rejected: " ++ toString s.rejected ++ ", active: " ++
    toString s.active ++ " \x7d"

def executorView (w : World V) (e : Nat) : ExecutorView :=
  let name := w.nameOf e
  let state := (w.stateOf? e).getD .terminated
  { name, state, time := w.now
    debug := "Executor \x7b name: " ++ Text.quoted name ++ ", state: " ++ state.label ++
      ", stats: " ++ statsDebug (w.statsOf e) ++ " \x7d" }

/-- What a settled cell yields to its readers. -/
def read? (w : World V) (c : Nat) : Option (Except TaskError (Option V)) :=
  (w.outcomeOf c).map (·.read)

end TimedTasks.World

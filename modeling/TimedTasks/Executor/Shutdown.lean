import TimedTasks.Executor.Admission
/-!
The end of an executor's life. The first shutdown makes it drain; when its last child has ended, or
at once if it has none, it terminates. `shutdown` leaves tasks under way alone, but may cancel those
that wait for their time; `shutdownNow` cancels every child.
-/

namespace TimedTasks.World

variable {V : Type}

/-- Announces the termination of an executor. -/
def markTerminated (w : World V) (e : Nat) : World V :=
  (((w.modifyExecutor e fun x => { x with state := .terminated }).record
    (.terminated e)).wakeTermination e).report (.terminated (w.nameOf e))

/-- Whether no child comes in any more and none holds up termination. -/
def isDrained (w : World V) (e : Nat) : Bool :=
  match w.executors[e]? with
  | none => false
  | some x => x.closed && x.tracked == 0

/-- Lets the executor terminate once its last child has ended. -/
def beginDrain (w : World V) (e : Nat) : World V :=
  let w := w.modifyExecutor e fun x => { x with closed := true }
  if w.isDrained e then w.markTerminated e else w.enqueue (.watcher e)

/-- Moves a running executor on, and tells whether it was running. -/
def beginShutdown (w : World V) (e : Nat) : World V × Bool :=
  let w := w.record (.asked e)
  if w.isRunning e then
    ((w.modifyExecutor e fun x => { x with state := .draining }).record (.draining e), true)
  else (w, false)

/-- Whether a shutdown stops the children of a kind that wait for their time. -/
def stopsAtShutdown (s : Settings) : ChildKind → Bool
  | .immediate => false
  | .delayed => !s.keepDelayed
  | .periodic => !s.keepPeriodic

/-- Cancels, of some children, those that a shutdown stops and that are not in a run. -/
def applyPolicies (w : World V) (s : Settings) : List Nat → World V
  | [] => w
  | i :: is =>
    match w.children[i]? with
    | none => w.applyPolicies s is
    | some child =>
      if stopsAtShutdown s child.work.kind then
        let (w, granted) := w.cancel child.cell false
        let w := if granted then w.report (.cancelledByPolicy child.id child.work.kind) else w
        w.applyPolicies s is
      else w.applyPolicies s is

/-- Shuts an executor down and lets its tasks finish. A second call does nothing. -/
def shutdown (w : World V) (e : Nat) : World V :=
  let w := w.report (.shutdownCalled (w.nameOf e))
  match w.executors[e]?, w.beginShutdown e with
  | some x, (w, true) =>
    ((w.report .shuttingDown).applyPolicies x.settings x.registry).beginDrain e
  | _, (w, _) => w

/-- Signals cancellation to the tasks of several cells. -/
def signalAll (w : World V) : List Nat → World V
  | [] => w
  | c :: cs => (w.signal c).signalAll cs

/-- The cells of an executor's children that have not ended. -/
def registeredCells (w : World V) (e : Nat) : List Nat :=
  ((w.executors[e]?.map (·.registry)).getD []).filterMap fun i => w.children[i]?.map (·.cell)

/-- Shuts an executor down and cancels every child. -/
def shutdownNow (w : World V) (e : Nat) : World V :=
  let w := w.report (.shutdownNowCalled (w.nameOf e))
  let (w, moved) := w.beginShutdown e
  let cells := w.registeredCells e
  let (w, n) := w.cancelAll cells
  let w := (w.signalAll cells).report (.shutDownNow n)
  if moved then w.beginDrain e else w

/-- Whether a shutdown was asked for. -/
def isShutdown (w : World V) (e : Nat) : Bool := !w.isRunning e

def isTerminated (w : World V) (e : Nat) : Bool := w.stateOf? e == some .terminated

/-- Whether a child of a kind may still start a run. -/
def mayRun (w : World V) (e : Nat) (kind : ChildKind) : Bool :=
  match w.executors[e]? with
  | none => false
  | some x => x.state == .running || !stopsAtShutdown x.settings kind

end TimedTasks.World

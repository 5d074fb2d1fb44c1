import TimedTasks.Executor.Turn
/-!
The passage of time. A clock that jumps goes straight to its next reading; any other passes through
each whole millisecond at which a task is due, and lets the tasks run there, before it gets to the
reading asked for. Before and after every movement turns are taken until no task is ready.
-/

namespace TimedTasks.World

variable {V : Type}

/-- Sets the clock and wakes those whose time has come. -/
def moveTo (w : World V) (t : Duration) : World V :=
  { w with clock := { w.clock with elapsed := t } }.wakeDue

/-- The whole milliseconds after now at which waiting tasks are due. -/
def stops (w : World V) : List Instant :=
  (w.waiting.filterMap w.deadline?).map Instant.ceilMilli |>.filter (w.now < ·)

/-- The first stop, if it is not after `target`. -/
def nextStop? (w : World V) (target : Instant) : Option Instant :=
  match w.stops.min? with
  | some t => if t ≤ target then some t else none
  | none => none

/-- Passes through at most `n` stops on the way to a reading, and then goes there. -/
def passTo (w : World V) (target : Duration) : (n : Nat) → World V
  | 0 => (w.moveTo target).quiesce
  | n + 1 =>
    match (w.nextStop? target.nanos).bind Duration.ofNanos? with
    | some t => (w.moveTo t).quiesce.passTo target n
    | none => (w.moveTo target).quiesce

/-- Moves the clock to a reading that is not before the present one. Stops are a millisecond apart
at least. -/
def goTo (w : World V) (target : Duration) : World V :=
  if w.clock.jumps then (w.moveTo target).quiesce
  else w.passTo target ((target.nanos - w.now) / nanosPerMilli + 1)

/-- Moves the clock on. A sum of durations that is too long leaves it where it is. -/
def advance (w : World V) (d : Duration) : World V × Option Panic :=
  let w := w.quiesce
  match w.clock.elapsed.add? d with
  | none => (w, some .durationOverflow)
  | some target =>
    let w := if w.clock.jumps then w.report (.clockAdvanced d target) else w
    (w.goTo target, none)

/-- Sets a clock that jumps to a reading; one that is not ahead is ignored. -/
def setElapsed (w : World V) (target : Duration) : World V :=
  let w := w.quiesce
  if w.clock.elapsed < target then w.goTo target else w

end TimedTasks.World

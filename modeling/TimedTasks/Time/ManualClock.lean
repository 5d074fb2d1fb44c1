import TimedTasks.Error.Panic
import TimedTasks.Time.Duration
/-!
A clock that moves only when it is told to. Any number of handles share its time, and sleepers wait
on it for theirs; what a sleeper waits for does not depend on the handle that made it.

A sleeper looks at the time when it is first asked, and from then on only when the time has been set
since. Time never goes back, and what does not move it forward does not set it. When the last handle
is gone the time stands still, and whoever still waits does so for ever. A clock whose time is too
late for an instant still counts the time that has elapsed, but cannot be read, and breaks the
sleepers that look at it.
-/

namespace TimedTasks

/-- Someone who waits for a time on a clock. -/
structure Sleeper where
  /-- The instant that it waits for; one that waits for no instant never wakes. -/
  deadline : Option Instant
  /-- How often the time had been set when it last looked, if it has. -/
  seen : Option Nat := none

structure ManualClock where
  /-- What the clock showed at first. -/
  start : Instant := 0
  /-- The time since then. -/
  elapsed : Duration := .zero
  /-- How often the time has been set. -/
  changes : Nat := 0
  /-- The names of the handles, each of which is there once. -/
  handles : List String
  /-- The sleepers that have not woken, in the order of their names. -/
  sleepers : List (String × Sleeper) := []

namespace ManualClock

/-- What can be done with a handle. -/
inductive Command where
  | advance (d : Duration)
  | setElapsed (d : Duration)
  /-- A sleeper that waits for a time from now. -/
  | sleep (name : String) (d : Duration)
  /-- A sleeper that waits for a time since the start of the clock. -/
  | sleepUntil (name : String) (d : Duration)
  /-- A sleeper that waits for an instant. -/
  | sleepTill (name : String) (t : Instant)
  | share (handle : String)
  | release
  | read

def Command.advanceMillis (ms : UInt64) : Command := .advance (.ofMillis ms)

/-- The instant that the clock shows, where it can be represented. -/
def now? (c : ManualClock) : Option Instant := c.start.after? c.elapsed

/-- Puts a sleeper in its place; an earlier one of that name is given up. -/
def place (name : String) (s : Sleeper) : List (String × Sleeper) → List (String × Sleeper)
  | [] => [(name, s)]
  | (n, r) :: l =>
    if name < n then (name, s) :: (n, r) :: l
    else if name = n then (name, s) :: l
    else (n, r) :: place name s l

def addSleeper (c : ManualClock) (name : String) (deadline : Option Instant) : ManualClock :=
  { c with sleepers := place name { deadline } c.sleepers }

/-- Sets the time that has elapsed. -/
def set (c : ManualClock) (t : Duration) : ManualClock :=
  { c with elapsed := t, changes := c.changes + 1 }

/-- What a command on one of the handles makes of the clock; a command that breaks off changes
nothing. -/
def perform (c : ManualClock) (handle : String) : Command → Except Panic ManualClock
  | .advance d =>
    match c.elapsed.add? d with
    | some t => .ok (c.set t)
    | none => .error .durationOverflow
  | .setElapsed d => .ok (if c.elapsed < d then c.set d else c)
  | .sleep name d =>
    match c.now? with
    | some t => .ok (c.addSleeper name (t.after? d))
    | none => .error .instantOverflow
  | .sleepUntil name d =>
    match c.start.after? d with
    | some t => .ok (c.addSleeper name (some t))
    | none => .error .instantOverflow
  | .sleepTill name t => .ok (c.addSleeper name (some t))
  | .share new => .ok { c with handles := new :: c.handles.filter (· != new) }
  | .release => .ok { c with handles := c.handles.filter (· != handle) }
  | .read => .ok c

/-- A command on a handle that exists, and why it broke off; there are no others. -/
def command (c : ManualClock) (handle : String) (command : Command) :
    ManualClock × Option Panic :=
  if handle ∈ c.handles then
    match c.perform handle command with
    | .ok c => (c, none)
    | .error p => (c, some p)
  else (c, none)

/-- How a sleeper finds the clock. -/
inductive Sight where
  | waits
  | wakes
  /-- No handle is left to set the time. -/
  | stranded
  /-- The time of the clock cannot be represented. -/
  | breaks
deriving DecidableEq, Repr

/-- What a sleeper does that has nothing to wake for. -/
def idle (c : ManualClock) : Sight := if c.handles.isEmpty then .stranded else .waits

def sight (c : ManualClock) (s : Sleeper) : Sight :=
  match s.deadline with
  | none => .waits
  | some d =>
    if s.seen = some c.changes then c.idle
    else
      match c.now? with
      | some t => if d ≤ t then .wakes else c.idle
      | none => .breaks

/-- A sleeper that stops waiting, with whether it breaks. -/
def stir (c : ManualClock) (p : String × Sleeper) : Option (String × Bool) :=
  match c.sight p.2 with
  | .wakes => some (p.1, false)
  | .breaks => some (p.1, true)
  | _ => none

/-- A sleeper that goes on waiting, after it has looked at the clock. -/
def keep (c : ManualClock) (p : String × Sleeper) : Option (String × Sleeper) :=
  match c.sight p.2 with
  | .waits => some (p.1, { p.2 with seen := some c.changes })
  | .stranded => some (p.1, ⟨none, some c.changes⟩)
  | _ => none

def stirred (c : ManualClock) : List (String × Bool) := c.sleepers.filterMap c.stir

/-- The clock when every sleeper has looked at it. -/
def settled (c : ManualClock) : ManualClock := { c with sleepers := c.sleepers.filterMap c.keep }

/-- What can be seen after a command. -/
structure Observation where
  /-- Why the command broke off. -/
  panic : Option Panic
  /-- The sleepers that woke, or broke. -/
  stirred : List (String × Bool)
  handles : List String
  elapsed : Duration
  now : Option Instant

/-- One command, after which every sleeper looks at the clock. -/
def step (c : ManualClock) (handle : String) (command : Command) : ManualClock × Observation :=
  let (c, panic) := c.command handle command
  (c.settled, ⟨panic, c.stirred, c.handles, c.elapsed, c.now?⟩)

/-- What can be seen after each of several commands. -/
def run (c : ManualClock) : List (String × Command) → List Observation
  | [] => []
  | (handle, command) :: l => (c.step handle command).2 :: (c.step handle command).1.run l

end ManualClock

end TimedTasks

import TimedTasks.Error.Panic
import TimedTasks.Time.DurationText
/-!
Waiting for a condition by asking again and again, and bounded waits. All waits end at whole
milliseconds, and time starts at zero.

A condition may take its time over each answer. `pollUntil` never cuts an answer short and asks one
last time at or after its bound; `eventually` breaks off at its bound, whatever it is doing.
-/

namespace TimedTasks.Polling

/-- When a wait of `d` that begins at `t` is over. -/
def waitEnd (t : Instant) (d : Duration) : Instant := Instant.ceilMilli (t + d.nanos)

theorem le_waitEnd (t : Instant) (d : Duration) : t + d.nanos ≤ waitEnd t d :=
  Instant.le_ceilMilli _

/-- One answer of a condition, and the time that it took. -/
structure Check where
  takes : Nat
  holds : Bool
deriving DecidableEq, Repr

/-- A condition: what its check of a given number, counted from zero, comes to when it starts at a
given instant. -/
abbrev Condition := (number : Nat) → (start : Instant) → Check

/-- How the waiting for a condition ended. -/
structure Result where
  holds : Bool
  /-- When each check was started, the first one first. -/
  starts : Array Instant
  finish : Instant
deriving DecidableEq, Repr

/-- How many checks were started. -/
def Result.checks (r : Result) : Nat := r.starts.size

/-- The checks after those that were started `earlier`. There is no result if time stands still
between two of them. -/
def pollFrom (condition : Condition) (timeout interval : Duration) (earlier : Array Instant)
    (start : Instant) : Option Result :=
  let check := condition earlier.size start
  let starts := earlier.push start
  let finish := start + check.takes
  if check.holds then some ⟨true, starts, finish⟩
  else if timeout.nanos ≤ start then some ⟨false, starts, finish⟩
  else if start < waitEnd finish interval then
    pollFrom condition timeout interval starts (waitEnd finish interval)
  else none
termination_by timeout.nanos - start
decreasing_by
  rename_i early moves
  exact Nat.sub_lt_sub_left (Nat.lt_of_not_le early) moves

/-- Asks until the condition holds, with an interval after each answer; a check that starts at the
timeout or later is the last. -/
def pollUntil (condition : Condition) (timeout interval : Duration) : Option Result :=
  pollFrom condition timeout interval #[] 0

/-- The interval between the checks of `eventually`. -/
def tenMillis : Duration := .ofMillis 10

theorem lt_waitEnd_tenMillis (t : Instant) : t < waitEnd t tenMillis := by
  exact Nat.lt_of_lt_of_le (Nat.lt_add_of_pos_right (by decide)) (le_waitEnd t tenMillis)

/-- The checks after those that were started `earlier`, as far as they come before a deadline. -/
def eventuallyFrom (condition : Condition) (deadline : Instant) (earlier : Array Instant)
    (start : Instant) : Result :=
  let check := condition earlier.size start
  let starts := earlier.push start
  let finish := start + check.takes
  if deadline < finish then ⟨false, starts, deadline⟩
  else if check.holds then ⟨true, starts, finish⟩
  else if deadline < waitEnd finish tenMillis then ⟨false, starts, deadline⟩
  else eventuallyFrom condition deadline starts (waitEnd finish tenMillis)
termination_by deadline - start
decreasing_by
  rename_i early
  have moves : start < waitEnd (start + (condition earlier.size start).takes) tenMillis :=
    Nat.lt_of_le_of_lt (Nat.le_add_right _ _) (lt_waitEnd_tenMillis _)
  exact Nat.sub_lt_sub_left (Nat.lt_of_lt_of_le moves (Nat.le_of_not_lt early)) moves

/-- Asks every ten milliseconds until the condition holds. What is due at the deadline itself still
comes in time. -/
def eventually (condition : Condition) (timeout : Duration) : Result :=
  eventuallyFrom condition (waitEnd 0 timeout) #[] 0

/-- What is reported of a condition that did not come to hold. -/
def failure (timeout : Duration) : Panic :=
  .assertion ("Condition did not become true within " ++ timeout.text)

/-- Waits for work, but not longer than a timeout: whether the work was done in time, and when the
wait ended. Work that is done at the deadline is done in time. -/
def bounded (timeout work : Duration) : Bool × Instant :=
  if waitEnd 0 work ≤ waitEnd 0 timeout then (true, waitEnd 0 work) else (false, waitEnd 0 timeout)

/-- A condition that takes a fixed time for its answers and holds from some instant on. -/
def Condition.flipping (takes : Option Duration) (flipsAt : Option Duration) : Condition :=
  fun _ start =>
    let finish := match takes with
      | some d => waitEnd start d
      | none => start
    ⟨finish - start, match flipsAt with
      | some d => d.nanos ≤ finish
      | none => false⟩

end TimedTasks.Polling

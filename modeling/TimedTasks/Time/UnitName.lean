import TimedTasks.Error.Fault
import TimedTasks.Text.Blank
import TimedTasks.Time.Unit
/-!
The names of the units of time: the full name, the suffix after an amount, and the readers of both.
-/

namespace TimedTasks.TimeUnit

/-- The full name, which is also the serialised form. -/
def name : TimeUnit → String
  | nanoseconds => "nanoseconds"
  | microseconds => "microseconds"
  | milliseconds => "milliseconds"
  | seconds => "seconds"
  | minutes => "minutes"
  | hours => "hours"
  | days => "days"

/-- The suffix after an amount. -/
def suffix : TimeUnit → String
  | nanoseconds => "ns"
  | microseconds => "us"
  | milliseconds => "ms"
  | seconds => "s"
  | minutes => "m"
  | hours => "h"
  | days => "d"

/-- A text without white space at its ends and with the letters `A` to `Z` lowered. -/
def normalized (s : String) : List Char := (Text.trim s.toList).map Char.toLower

/-- Whether a normalised text names this unit. -/
def isNamed (s : List Char) (u : TimeUnit) : Bool :=
  u.name.toList == s || u.suffix.toList == s

/-- The unit that a text names, in either form, whatever the case of its letters and the white
space around it. -/
def ofText? (s : String) : Except Fault TimeUnit :=
  match all.find? (isNamed (normalized s)) with
  | some u => .ok u
  | none => .error (.validation "time_unit" "unknown time unit" (some s))

/-- The shapes in which a serialised unit may arrive. -/
inductive Encoded where
  | name (s : String)
  /-- A record; each key comes with whether its value is absent. -/
  | record (entries : List (String × Bool))
  | other
deriving DecidableEq, Repr

/-- The unit of exactly this full name. -/
def ofName? (s : String) : Option TimeUnit := all.find? fun u => u.name == s

/-- A serialised unit is its full name, or a record whose only key is that name, with no value. -/
def ofEncoded? : Encoded → Option TimeUnit
  | .name s => ofName? s
  | .record [(s, true)] => ofName? s
  | _ => none

end TimedTasks.TimeUnit

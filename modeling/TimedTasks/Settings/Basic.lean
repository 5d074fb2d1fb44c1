import TimedTasks.Error.TaskError
import TimedTasks.Text.Blank
import TimedTasks.Text.Quoted
/-!
The settings of an executor: its name, and what a shutdown does to tasks that wait for their time.
-/

namespace TimedTasks

structure Settings where
  /-- The name shown in reports and in rejections. -/
  name : String := "cadence"
  /-- Periodic tasks go on after a shutdown. -/
  keepPeriodic : Bool := true
  /-- Delayed tasks that wait for their time at a shutdown still run. -/
  keepDelayed : Bool := true
deriving DecidableEq, Repr

namespace Settings

/-- Only the name can be wrong: it must hold something other than white space. -/
def validate (s : Settings) : Except Fault Unit :=
  if Text.allBlank s.name.toList then
    .error (.config "executor name must not be empty" (some "name"))
  else .ok ()

/-- Settings that differ from given ones where a choice was made. -/
def override (s : Settings) (name : Option String) (keepPeriodic keepDelayed : Option Bool) :
    Settings where
  name := name.getD s.name
  keepPeriodic := keepPeriodic.getD s.keepPeriodic
  keepDelayed := keepDelayed.getD s.keepDelayed

/-- The settings themselves, if they are valid. -/
def checked (s : Settings) : Except TaskError Settings :=
  match s.validate with
  | .ok () => .ok s
  | .error f => .error (.ofFault f)

theorem checked_eq_ok_iff (s t : Settings) :
    s.checked = .ok t ↔ t = s ∧ Text.allBlank s.name.toList = false := by
  unfold checked validate
  cases h : Text.allBlank s.name.toList <;> simp [eq_comm]

def boolText (b : Bool) : String := if b then "true" else "false"

/-- The settings as a record with named fields. -/
def debugText (s : Settings) : String :=
  "ExecutorConfig \x7b name: " ++ Text.quoted s.name ++
    ", continue_periodic_after_shutdown: " ++ boolText s.keepPeriodic ++
    ", execute_delayed_after_shutdown: " ++ boolText s.keepDelayed ++ " \x7d"

end Settings

end TimedTasks

import TimedTasks.Settings.Basic
/-!
An executor that is still to be built, and what building it comes to where no runtime is at hand.
-/

namespace TimedTasks

/-- Settings for an executor that is still to be built, and what it was given besides. -/
structure Draft where
  settings : Settings := {}
  hasRuntime : Bool := false
  hasClock : Bool := false

namespace Draft

/-- The draft as a record with named fields. -/
def debugText (d : Draft) : String :=
  "ExecutorBuilder \x7b config: " ++ d.settings.debugText ++
    ", dispatcher: " ++ Settings.boolText d.hasRuntime ++
    ", clock: " ++ Settings.boolText d.hasClock ++ " \x7d"

/-- Builds a draft where no runtime is at hand. -/
def buildAlone (d : Draft) : Except TaskError Settings := do
  let s ← d.settings.checked
  if d.hasRuntime then return s
  else
    throw (.config ("no dispatcher given and no tokio runtime running: there is no reactor " ++
      "running, must be called from the context of a Tokio 1.x runtime"))

end Draft

end TimedTasks

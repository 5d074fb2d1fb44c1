import TimedTasks.Settings.Basic
import TimedTasks.Toml.Reader
import TimedTasks.Toml.StringForm
/-!
Settings as a TOML document: one line for each of them when written; when read, each of them may be
left out, and other keys do not matter.
-/

namespace TimedTasks.Settings

/-- The keys of the settings. -/
def nameKey : String := "name"
def keepPeriodicKey : String := "continue_periodic_after_shutdown"
def keepDelayedKey : String := "execute_delayed_after_shutdown"

/-- The text under a key, or another one if the key is missing. -/
def string? (es : Toml.Entries) (key default : String) : Option String :=
  match es.lookup key with
  | none => some default
  | some (.string s) => some s
  | some _ => none

/-- The truth value under a key, or another one if the key is missing. -/
def boolean? (es : Toml.Entries) (key : String) (default : Bool) : Option Bool :=
  match es.lookup key with
  | none => some default
  | some (.boolean b) => some b
  | some _ => none

/-- The settings that the entries of a document give. -/
def ofEntries? (es : Toml.Entries) : Option Settings := do
  let standard : Settings := {}
  let name ← string? es nameKey standard.name
  let keepPeriodic ← boolean? es keepPeriodicKey standard.keepPeriodic
  let keepDelayed ← boolean? es keepDelayedKey standard.keepDelayed
  some ⟨name, keepPeriodic, keepDelayed⟩

/-- Reads valid settings. -/
def ofDocument (text : String) : Except TaskError Settings :=
  match (Toml.readDocument? text.toList).bind ofEntries? with
  | none => .error (.config "Serialization error (TOML)")
  | some s => s.checked

/-- A line that gives a key a value. -/
def line (key : String) (value : List Char) : List Char :=
  key.toList ++ [' ', '=', ' '] ++ value ++ ['\n']

/-- Writes settings. -/
def document (s : Settings) : String :=
  String.ofList (line nameKey (Toml.writeString s.name.toList) ++
    line keepPeriodicKey (boolText s.keepPeriodic).toList ++
    line keepDelayedKey (boolText s.keepDelayed).toList)

end TimedTasks.Settings

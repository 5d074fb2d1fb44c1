/-!
Scripts of development chores: lines to print and commands of `cargo` to run, one after the other
until one of them fails. Running a script takes the exit codes of the commands that it runs.
-/

namespace TimedTasks.Chores

inductive Action where
  /-- Prints a line. -/
  | say (line : String)
  /-- Prints a line where errors go. -/
  | warn (line : String)
  /-- Runs a command. `label` names it where there is no `cargo`, and `failure` is reported where it
  fails. -/
  | run (arguments : List String) (label failure : String)
  /-- Runs a command to see if it is there; its own messages stand for it where it is not. -/
  | probe (arguments : List String) (advice : List String) (failure : String)
  /-- Gives up. -/
  | fail (message : String)
deriving DecidableEq, Repr

/-- A chore, from its first action to its last. -/
abbrev Script := List Action

/-- The exit codes of the commands to come, with zeros after the last; none if there is no `cargo`
to run. -/
abbrev Codes := Option (List Nat)

/-- What running a script leaves behind. -/
structure Transcript where
  exit : Nat := 0
  stdout : String := ""
  stderr : String := ""
  /-- The arguments of the commands that were run, in order. -/
  calls : List (List String) := []
deriving DecidableEq, Repr

namespace Transcript

def andOut (line : String) (t : Transcript) : Transcript :=
  { t with stdout := line ++ "\n" ++ t.stdout }

def andWarning (line : String) (t : Transcript) : Transcript :=
  { t with stderr := line ++ "\n" ++ t.stderr }

def andCall (arguments : List String) (t : Transcript) : Transcript :=
  { t with calls := arguments :: t.calls }

/-- The end of a script that gives up. -/
def failed (message : String) : Transcript :=
  andWarning ("Task failed: " ++ message) { exit := 1 }

end Transcript

/-- The exit code of the next command, and the codes that follow it. -/
def Codes.next (codes : List Nat) : Nat × Codes := (codes.headD 0, some codes.tail)

/-- What is reported where a command cannot be found. -/
def missing (label : String) : String :=
  "Failed to run " ++ label ++ ": No such file or directory (os error 2)"

/-- Runs a script. What comes after a command is only done if the command ended with code zero. -/
def Script.run : Script → Codes → Transcript
  | [], _ => {}
  | .say line :: rest, codes => (Script.run rest codes).andOut line
  | .warn line :: rest, codes => (Script.run rest codes).andWarning line
  | .run _ label _ :: _, none => .failed (missing label)
  | .run arguments _ failure :: rest, some codes =>
    let (code, codes) := Codes.next codes
    (if code = 0 then Script.run rest codes else .failed failure).andCall arguments
  | .probe _ advice failure :: _, none =>
    advice.foldr Transcript.andWarning (.failed failure)
  | .probe arguments advice failure :: rest, some codes =>
    let (code, codes) := Codes.next codes
    (if code = 0 then Script.run rest codes
      else advice.foldr Transcript.andWarning (.failed failure)).andCall arguments
  | .fail message :: _, _ => .failed message

end TimedTasks.Chores

import TimedTasks.Chores.Catalogue
/-!
The command line of the chores. The commands that a chore would run are listed instead, with the
exit codes that standard input gives for them on one line.
-/

open TimedTasks.Chores

/-- The exit codes on a line; the word `missing` says that there is no `cargo`. -/
def readCodes (line : String) : Codes :=
  if line.trimAscii == "missing" then none
  else some ((line.split Char.isWhitespace).toList.filterMap fun w => w.toNat?)

def main (arguments : List String) : IO UInt32 := do
  let line ← (← IO.getStdin).getLine
  let t := (scriptOf arguments).run (readCodes line)
  IO.print t.stdout
  IO.eprint t.stderr
  for call in t.calls do
    IO.println ("cargo " ++ " ".intercalate call)
  return UInt32.ofNat t.exit

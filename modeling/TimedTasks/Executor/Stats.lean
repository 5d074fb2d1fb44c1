import TimedTasks.Decimal.Shortest
import TimedTasks.Error.Panic
/-!
What an executor counts, and the figures derived from the counts.
-/

namespace TimedTasks

/-- The counters of an executor. A task is counted as submitted when it is admitted, and once more,
by its outcome, when it has ended. -/
structure Counters where
  submitted : Nat := 0
  completed : Nat := 0
  failed : Nat := 0
  cancelled : Nat := 0
  rejected : Nat := 0
deriving DecidableEq, Repr

/-- A snapshot of an executor's counters, and how many tasks were still under way. -/
structure Stats extends Counters where
  active : Nat := 0
deriving DecidableEq, Repr

/-- The counters with the number of admitted tasks that have not ended. -/
def Counters.snapshot (c : Counters) : Stats :=
  { c with active := c.submitted - (c.completed + c.failed + c.cancelled) }

namespace Stats

/-- The tasks that have ended, where a 64-bit word holds their number. -/
def finished (s : Stats) : Except Panic Nat :=
  let n := s.completed + s.failed + s.cancelled
  if n < UInt64.size then .ok n else .error .sumOverflow

/-- The share of the ended tasks that failed, zero where none has ended. -/
def failureRate (s : Stats) : Except Panic Decimal.Numeral :=
  s.finished.map fun n =>
    ((Decimal.Binary.ofNat s.failed).div (Decimal.Binary.ofNat n)).shortest

/-- One line for a person. -/
def status (s : Stats) : String :=
  "Executor: " ++ toString s.active ++ " active, " ++ toString s.submitted ++ " submitted (" ++
    toString s.completed ++ " completed, " ++ toString s.failed ++ " failed, " ++
    toString s.cancelled ++ " cancelled), " ++ toString s.rejected ++ " rejected"

end Stats

/-- How a share is written: at least one digit after the point, and from `10 ^ -6` down with an
exponent of ten after the first digit. -/
def shareText (d : Decimal.Numeral) : String :=
  let digits := (toString d.digits).toList
  let point : Int := digits.length + d.exponent
  if d.digits = 0 then "0.0"
  else if 0 < point then
    let whole := digits.take point.toNat ++ List.replicate (point.toNat - digits.length) '0'
    let part := digits.drop point.toNat
    String.ofList (whole ++ '.' :: (if part.isEmpty then ['0'] else part))
  else if -5 < point then
    String.ofList ('0' :: '.' :: List.replicate (-point).toNat '0' ++ digits)
  else
    let rest := digits.drop 1
    String.ofList (digits.take 1 ++ (if rest.isEmpty then [] else '.' :: rest)) ++
      "e" ++ toString (point - 1)

end TimedTasks

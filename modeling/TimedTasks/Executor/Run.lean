import TimedTasks.Executor.Call
/-!
One run of a body. A run goes on until its body waits for something or ends. It starts only where
the task's cell allows it; and whenever it is resumed it first looks whether the task was cancelled,
and if so gives the body up, even if what the body waited for has come.
-/

namespace TimedTasks

/-- How far a run has come. -/
inductive Progress (V : Type) where
  /-- The body waits, with the steps that are left. -/
  | suspended (on : Wait) (rest : List (Step V))
  | ended (r : RunEnd V)

namespace World

variable {V : Type}

/-- Runs steps of a body until it waits or ends. -/
def runSteps (w : World V) (who : String) : List (Step V) → World V × Progress V
  | [] => (w.note who .succeeded, .ended (.returned none))
  | .sleep d :: rest =>
    match Instant.after? w.now d with
    | none => (w, .suspended .forever rest)
    | some t =>
      if t ≤ w.now then (w.note who .woke).runSteps who rest else (w, .suspended (.time t) rest)
  | .act c :: rest =>
    let (w, a) := w.perform c
    (w.note who (.answered a)).runSteps who rest
  | .get f :: rest =>
    match w.futureNames.get? f with
    | none => (w.note who .panicked, .ended .panicked)
    | some h =>
      match w.read? h.cell with
      | some r => (w.note who (.answered (.read r))).runSteps who rest
      | none => (w, .suspended (.cell h.cell false) rest)
  | .join f :: rest =>
    match w.futureNames.get? f with
    | none => (w.note who .panicked, .ended .panicked)
    | some h =>
      match w.read? h.cell with
      | some (.ok v) => (w.note who (.answered (.read (.ok v)))).runSteps who rest
      | some (.error e) =>
        (w.note who (.answered (.read (.error e))), .ended (.failed (.error e)))
      | none => (w, .suspended (.cell h.cell true) rest)
  | .ok v :: _ => (w.note who .succeeded, .ended (.returned v))
  | .err cause :: _ => (w.note who .failed, .ended (.failed cause))
  | .panic :: _ => (w.note who .panicked, .ended .panicked)
  | .pending :: rest => (w, .suspended .forever rest)

/-- Goes on with a suspended body, if what it waits for has come. -/
def resumeSteps (w : World V) (who : String) (on : Wait) (rest : List (Step V)) :
    World V × Progress V :=
  match on with
  | .forever => (w, .suspended on rest)
  | .time t =>
    if t ≤ w.now then (w.note who .woke).runSteps who rest else (w, .suspended on rest)
  | .cell c joined =>
    match w.read? c, joined with
    | none, _ => (w, .suspended on rest)
    | some (.error e), true =>
      (w.note who (.answered (.read (.error e))), .ended (.failed (.error e)))
    | some r, _ => (w.note who (.answered (.read r))).runSteps who rest

/-- Closes a run that ended. A body that broke off leaves its run open: its cell is cancelled
when the task ends. -/
def closeRun (w : World V) (c : Nat) : Progress V → World V × Progress V
  | p@(.suspended ..) | p@(.ended .panicked) => (w, p)
  | p => (w.endRun c, p)

/-- Starts a run of a body, if the cell of its task allows it. -/
def startRun (w : World V) (c : Nat) (who : String) (body : Body V) : World V × Progress V :=
  if !w.mayStart c then (w, .ended .stopped)
  else if w.isSignalled c then (w, .ended .stopped)
  else
    let w := (w.beginRun c).record (.called c)
    match body with
    | .broken => (w, .ended .panicked)
    | .steps s =>
      let (w, p) := ((w.record (.polled c)).note who .started).runSteps who s
      w.closeRun c p

/-- Goes on with a run, unless its task was cancelled. -/
def resumeRun (w : World V) (c : Nat) (who : String) (on : Wait) (rest : List (Step V)) :
    World V × Progress V :=
  if w.isSignalled c then ((w.note who .dropped).endRun c, .ended .stopped)
  else
    let (w, p) := (w.record (.polled c)).resumeSteps who on rest
    w.closeRun c p

end World

end TimedTasks

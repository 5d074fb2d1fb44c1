import TimedTasks.Executor.Run
/-!
The turn of a child. A child that runs once does so on its first turn, or when its time has come; a
periodic one waits for its time, runs, sets its next due time and waits again. When a child has
ended, whichever way, its cell is settled, it leaves the registry, its outcome is counted, and last
it stops holding up the executor's termination.
-/

namespace TimedTasks.World

variable {V : Type}

def setStage (w : World V) (i : Nat) (s : Stage V) : World V :=
  w.modifyChild i fun child => { child with stage := s }

/-- Lets a child wait; one that was cancelled during its turn goes on instead. -/
def parkChild (w : World V) (i : Nat) (s : Stage V) : World V :=
  let w := w.setStage i s
  match w.children[i]? with
  | none => w
  | some child =>
    if w.isSignalled child.cell then w.enqueue (.child i) else w.suspend (.child i)

/-- Counts the ending of a child. -/
def countEnding (c : Counters) : Option Ending → Counters
  | some .completed => { c with completed := c.completed + 1 }
  | some .failed => { c with failed := c.failed + 1 }
  | some .cancelled | none => { c with cancelled := c.cancelled + 1 }

/-- Stops holding up the termination of an executor. -/
def release (w : World V) (e : Nat) : World V :=
  let w := w.modifyExecutor e fun x => { x with tracked := x.tracked - 1 }
  if w.isDrained e then w.wakeWatcher e else w

/-- Ends a child. A cell that its work left unsettled is cancelled. -/
def endChild (w : World V) (i : Nat) : World V :=
  match w.children[i]? with
  | none => w
  | some child =>
    let w := (w.cancel child.cell true).1
    let ending := w.endingOf child.cell
    let w := w.modifyExecutor child.executor fun x =>
      { x with
        registry := x.registry.erase i
        counters := countEnding x.counters ending }
    let w := w.report
      (.childFinished (w.nameOf child.executor) child.id child.work.kind ending)
    (w.setStage i .ended).release child.executor

/-- Lets the caller of a batch go on. -/
def notifyBatch (w : World V) (b : Nat) : World V :=
  (w.modifyBatch b fun x => { x with notified := true }).wakeBatch b

/-- Counts one child of a batch as ended; the last one lets the caller go on. -/
def countDown (w : World V) (b : Nat) : World V :=
  let w := w.modifyBatch b fun x => { x with remaining := x.remaining - 1 }
  match w.batches[b]? with
  | some x => if x.remaining = 0 then w.notifyBatch b else w
  | none => w

/-- Offers a value to the caller of a batch, who takes the first. -/
def offer (w : World V) (b : Nat) (value : Option V) : World V :=
  match w.batches[b]? with
  | some x =>
    if x.winner.isNone then
      (w.modifyBatch b fun x => { x with winner := some value }).notifyBatch b
    else w
  | none => w

/-- Settles a cell with the result of a run. A body that broke off settles nothing. -/
def settleRun (w : World V) (c : Nat) : RunEnd V → World V
  | .returned value => w.settle c (.completed value)
  | .failed cause => w.settle c (.failed cause)
  | .stopped => w.settle c .cancelled
  | .panicked => w

/-- The end of a run as the cell of its task is told it, with the value that the task yields. The
value of one of a batch whose caller waits for the first goes to that caller instead. -/
def resultFor (work : Work V) (r : RunEnd V) : RunEnd V :=
  match work, r with
  | .once .unwanted _, .returned _ | .oneOfAny .., .returned _ => .returned none
  | .once (.instead value) _, .returned _ => .returned value
  | _, r => r

/-- Reports the failure of a task whose value nobody wants. -/
def reportUnwanted (w : World V) (child : Child V) (yield : Yield V) : RunEnd V → World V
  | .failed cause =>
    match yield with
    | .unwanted => w.report (.unwantedFailed (w.nameOf child.executor) cause)
    | _ => w
  | _ => w

/-- What the caller of a batch learns from the result of a run. -/
def tellBatch (w : World V) (b : Nat) : RunEnd V → World V
  | .returned value => w.offer b value
  | .failed cause => w.modifyBatch b fun x => { x with lastFailure := some cause }
  | _ => w

/-- Hands on the end of the last run of a child: to the caller of its batch, who counts it, and to
its cell. -/
def deliver (w : World V) (child : Child V) (r : RunEnd V) : World V :=
  let w := w.record (.ended child.cell r)
  let result := resultFor child.work r
  match child.work with
  | .once yield _ => (w.reportUnwanted child yield r).settleRun child.cell result
  | .delayed .. | .periodic .. => w.settleRun child.cell result
  | .oneOfAll b _ => (w.settleRun child.cell result).countDown b
  | .oneOfAny b _ => ((w.tellBatch b r).settleRun child.cell result).countDown b

/-- Finishes a child whose last run ended. -/
def finish (w : World V) (i : Nat) (child : Child V) (r : RunEnd V) : World V :=
  (w.deliver child r).endChild i

/-- Goes on after a piece of the only run of a child. -/
def afterOnce (w : World V) (i : Nat) (child : Child V) : Progress V → World V
  | .suspended on rest => w.parkChild i (.suspended on rest)
  | .ended r => w.finish i child r

/-- Ends a child that must not run any more. -/
def giveUp (w : World V) (i : Nat) (child : Child V) : World V :=
  w.finish i child .stopped

/-- Runs the body of a delayed child, if its time has come and no shutdown stops it. -/
def delayedTurn (w : World V) (i : Nat) (child : Child V) (due : Instant) (body : Body V) :
    World V :=
  if w.isSignalled child.cell then w.giveUp i child
  else if w.now < due then w.parkChild i (.scheduled due)
  else if !w.mayRun child.executor .delayed then w.giveUp i child
  else
    let (w, p) := w.startRun child.cell child.name body
    w.afterOnce i child p

/-- The body for the next run of a periodic child; the last one serves for all later runs. -/
def bodyForRun (runs : List (Body V)) (n : Nat) : Body V :=
  (runs[n]? <|> runs.getLast?).getD (.steps [])

/-- Starts the next run of a periodic child. -/
def fire (w : World V) (i : Nat) (child : Child V) (pace : Pace) (runs : List (Body V)) :
    World V × Progress V :=
  let n := (w.children[i]?.map (·.runs)).getD 0
  let w := w.modifyChild i fun x => { x with runs := x.runs + 1 }
  let w := w.report (.firing (w.nameOf child.executor) (n + 1) pace)
  w.startRun child.cell child.name (bodyForRun runs n)

/-- What follows a run of a periodic child. -/
inductive AfterRun where
  /-- The child waits, or has ended. -/
  | settled
  /-- The child looks for its next due time. -/
  | again

/-- Goes on after a piece of a run of a periodic child. A run that succeeded sets the next due
time; any other end of a run ends the child. -/
def afterFiring (w : World V) (i : Nat) (child : Child V) (pace : Pace) :
    Progress V → World V × AfterRun
  | .suspended on rest => (w.parkChild i (.suspended on rest), .settled)
  | .ended (.returned value) =>
    let w := w.record (.ended child.cell (.returned value))
    let due := ((w.markOf? child.cell).map (·.due)).getD w.now
    match pace.next? due w.now with
    | some next =>
      (w.modifyCell child.cell fun cell =>
        { cell with mark := cell.mark.map fun m => .ofInstant m.origin next }, .again)
    | none =>
      if w.isSignalled child.cell then (w.giveUp i child, .settled)
      else (w.parkChild i .stranded, .settled)
  | .ended (.failed cause) =>
    let n := (w.children[i]?.map (·.runs)).getD 0
    let w := w.report (.periodicFailed (w.nameOf child.executor) n cause)
    (w.finish i child (.failed cause), .settled)
  | .ended .stopped => (w.giveUp i child, .settled)
  | .ended .panicked => (w.finish i child .panicked, .settled)

/-- Runs a periodic child whose wait is over, as often as it is due again at once, and lets it wait
for its next time. A child that used up `rounds` lets the other tasks go first. -/
def periodicRounds (w : World V) (i : Nat) (child : Child V) (pace : Pace)
    (runs : List (Body V)) : (rounds : Nat) → World V
  | 0 => w.setStage i (.scheduled w.now) |>.enqueue (.child i)
  | rounds + 1 =>
    let due := ((w.markOf? child.cell).map (·.due)).getD w.now
    if !w.mayRun child.executor .periodic || w.isSignalled child.cell then w.giveUp i child
    else if w.now < due then w.parkChild i (.scheduled due)
    else
      let (w, p) := w.fire i child pace runs
      match w.afterFiring i child pace p with
      | (w, .settled) => w
      | (w, .again) => w.periodicRounds i child pace runs rounds

/-- How often a periodic child may start a run in one turn. A child that is due again at once is
late; after one more run it is not late any more. -/
def turnRounds : Nat := 4

/-- The turn of a periodic child that waits for its time. -/
def periodicTurn (w : World V) (i : Nat) (child : Child V) (pace : Pace) (runs : List (Body V))
    (due : Instant) : World V :=
  if w.isSignalled child.cell then w.giveUp i child
  else if w.now < due then w.parkChild i (.scheduled due)
  else w.periodicRounds i child pace runs turnRounds

/-- The first turn of a child. -/
def firstTurn (w : World V) (i : Nat) (child : Child V) : World V :=
  let w := w.report (.childStarted (w.nameOf child.executor) child.id child.work.kind)
  match child.work with
  | .once _ body | .oneOfAll _ body | .oneOfAny _ body =>
    let (w, p) := w.startRun child.cell child.name body
    w.afterOnce i child p
  | .delayed due body => w.delayedTurn i child due body
  | .periodic pace runs => w.periodicRounds i child pace runs turnRounds

/-- Goes on after a piece of a run of a child. A periodic child may start so many more runs in the
same turn. -/
def closeTurn (w : World V) (i : Nat) (child : Child V) (rounds : Nat) (p : Progress V) : World V :=
  match child.work with
  | .periodic pace runs =>
    match w.afterFiring i child pace p with
    | (w, .settled) => w
    | (w, .again) => w.periodicRounds i child pace runs rounds
  | _ => w.afterOnce i child p

/-- Goes on with the suspended body of a child. -/
def suspendedTurn (w : World V) (i : Nat) (child : Child V) (on : Wait)
    (rest : List (Step V)) : World V :=
  let (w, p) := w.resumeRun child.cell child.name on rest
  w.closeTurn i child turnRounds p

/-- The turn of a child. -/
def childTurn (w : World V) (i : Nat) : World V :=
  match w.children[i]? with
  | none => w
  | some child =>
    match child.stage, child.work with
    | .created, _ => w.firstTurn i child
    | .scheduled due, .delayed _ body => w.delayedTurn i child due body
    | .scheduled due, .periodic pace runs => w.periodicTurn i child pace runs due
    | .scheduled _, _ => w
    | .suspended on rest, _ => w.suspendedTurn i child on rest
    | .stranded, _ =>
      if w.isSignalled child.cell then w.giveUp i child else w.parkChild i .stranded
    | .ended, _ => w

end TimedTasks.World

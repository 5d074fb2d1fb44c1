import TimedTasks.Executor.Child
/-!
The turn of a waiter. What a waiter waits for has precedence over its bound: it looks first whether
that has come, and only then at the clock. The bound counts from the waiter's first turn; a bound
that ends too late to be represented never ends.
-/

namespace TimedTasks.World

variable {V : Type}

/-- Ends a waiter with its answer. -/
def finishWaiter (w : World V) (j : Nat) (name : String) (a : Answer V) : World V :=
  (w.modifyWaiter j fun x => { x with stage := .ended }).note name (.answered a)

/-- Whether what a waiter waits for has come. -/
def hasCome (w : World V) : Awaited → Bool
  | .cell c => w.isSettled c
  | .termination e => w.isTerminated e
  | .batch b => (w.batches[b]?.map (·.notified)).getD false

/-- Names the futures of a batch after the waiter that handed it in, by position. -/
def nameBatch (w : World V) (name : String) : (first : Nat) → List Nat → World V
  | _, [] => w
  | n, c :: cs => (w.nameFuture (name ++ "." ++ toString n) ⟨c, .plain⟩).nameBatch name (n + 1) cs

/-- The answer to a call that hands in a batch and waits for all of it. -/
def answerAll (w : World V) (j : Nat) (name : String) (cells : List Nat) : World V :=
  let w := w.nameBatch name 0 cells
  w.finishWaiter j name (.reads (cells.map w.read?))

/-- The answer to a call that hands in a batch and waits for the first value. -/
def anyResult (batch : Batch V) (bound : Option Duration) (inTime : Bool) :
    Except TaskError (Option V) :=
  match batch.winner with
  | some v => .ok v
  | none =>
    if !inTime then .error (.timeout (bound.getD .zero))
    else
      match batch.lastFailure with
      | some cause => .error (.execution cause)
      | none => .error .cancelled

/-- Ends a waiter: what it waited for has come, or its bound has ended first. -/
def conclude (w : World V) (j : Nat) (x : Waiter V) (on : Awaited) (inTime : Bool) : World V :=
  match x.request, on with
  | .get c bound, _ =>
    match w.read? c with
    | some r => w.finishWaiter j x.name (.read r)
    | none => w.finishWaiter j x.name (.read (.error (.timeout (bound.getD .zero))))
  | .termination e _, _ => w.finishWaiter j x.name (.flag (w.isTerminated e))
  | .invokeAll _ _ _, .batch b =>
    match w.batches[b]? with
    | none => w
    | some batch =>
      if inTime then w.answerAll j x.name batch.cells
      else
        let (w, n) := w.cancelAll batch.cells
        (w.report (.invokeAllTimedOut n)).answerAll j x.name batch.cells
  | .invokeAny _ _ bound, .batch b =>
    match w.batches[b]? with
    | none => w
    | some batch =>
      let (w, _) := w.cancelAll batch.cells
      let w :=
        if batch.winner.isNone && !inTime then
          w.report (.invokeAnyTimedOut (bound.getD .zero))
        else w
      w.finishWaiter j x.name (.read (anyResult batch bound inTime))
  | _, _ => w

/-- Looks whether a waiter is done, and lets it wait if not. -/
def checkWaiter (w : World V) (j : Nat) (x : Waiter V) (on : Awaited)
    (deadline : Option Instant) : World V :=
  if w.hasCome on then w.conclude j x on true
  else
    match deadline with
    | some t =>
      if t ≤ w.now then w.conclude j x on false
      else (w.modifyWaiter j fun y => { y with stage := .waiting on deadline }).suspend (.waiter j)
    | none =>
      (w.modifyWaiter j fun y => { y with stage := .waiting on deadline }).suspend (.waiter j)

/-- Hands in the tasks of a batch, and tells where their cells are. -/
def addBatchChildren (w : World V) (e : Nat) (name : String) (work : Body V → Work V) :
    (first : Nat) → List (Body V) → World V × List Nat
  | _, [] => (w, [])
  | n, body :: bodies =>
    let (w, c) := w.addChild e (name ++ "." ++ toString n) (work body) none
    let (w, cs) := w.addBatchChildren e name work (n + 1) bodies
    (w, c :: cs)

/-- Hands in a batch, whose place is the next after the present ones. -/
def openBatch (w : World V) (e : Nat) (name : String) (work : Nat → Body V → Work V)
    (bodies : List (Body V)) : World V :=
  let b := w.batches.length
  let (w, cells) := w.addBatchChildren e name (work b) 0 bodies
  { w with batches := w.batches ++ [{ cells, remaining := bodies.length }] }

/-- Hands in a batch and lets its caller wait for it. -/
def startBatch (w : World V) (j : Nat) (x : Waiter V) (e : Nat) (work : Nat → Body V → Work V)
    (bodies : List (Body V)) (bound : Option Duration) : World V :=
  let b := w.batches.length
  let w := w.openBatch e x.name work bodies
  w.checkWaiter j x (.batch b) (bound.bind (Instant.after? w.now))

/-- Adds cells of tasks that are cancelled from the start. -/
def addCancelledCells (w : World V) : (count : Nat) → World V × List Nat
  | 0 => (w, [])
  | n + 1 =>
    let (w, c) := w.addCell { outcome := some .cancelled }
    let (w, cs) := w.addCancelledCells n
    (w, c :: cs)

/-- Whether a bound leaves no time at all. -/
def isZeroBound : Option Duration → Bool
  | some d => d.isZero
  | none => false

/-- Begins a call that hands in a batch and waits for all of it. -/
def beginAll (w : World V) (j : Nat) (x : Waiter V) (e : Nat) (bodies : List (Body V))
    (bound : Option Duration) : World V :=
  let w := w.report (.invokeAllCalled (w.nameOf e) bodies.length bound)
  if !w.isRunning e then
    let (w, err) := w.reject e
    w.finishWaiter j x.name (.error err)
  else if isZeroBound bound then
    let (w, cells) := (w.report .cancelledUpFront).addCancelledCells bodies.length
    w.answerAll j x.name cells
  else if bodies.isEmpty then w.answerAll j x.name []
  else w.startBatch j x e .oneOfAll bodies bound

/-- Begins a call that hands in a batch and waits for the first value. -/
def beginAny (w : World V) (j : Nat) (x : Waiter V) (e : Nat) (bodies : List (Body V))
    (bound : Option Duration) : World V :=
  let w := w.report (.invokeAnyCalled (w.nameOf e) bodies.length bound)
  if bodies.isEmpty then
    w.finishWaiter j x.name (.error (.invalidArgument "invoke_any needs at least one task"))
  else if !w.isRunning e then
    let (w, err) := w.reject e
    w.finishWaiter j x.name (.error err)
  else if isZeroBound bound then
    w.finishWaiter j x.name (.error (.timeout .zero))
  else w.startBatch j x e .oneOfAny bodies bound

/-- The first turn of a waiter. -/
def beginWaiter (w : World V) (j : Nat) (x : Waiter V) : World V :=
  match x.request with
  | .get c bound => w.checkWaiter j x (.cell c) (bound.bind (Instant.after? w.now))
  | .termination e bound =>
    let w := w.report (.awaitTerminationCalled (w.nameOf e) bound)
    w.checkWaiter j x (.termination e) (Instant.after? w.now bound)
  | .invokeAll e bodies bound => w.beginAll j x e bodies bound
  | .invokeAny e bodies bound => w.beginAny j x e bodies bound

/-- The turn of a waiter. -/
def waiterTurn (w : World V) (j : Nat) : World V :=
  match w.waiters[j]? with
  | none => w
  | some x =>
    match x.stage with
    | .created => w.beginWaiter j x
    | .waiting on deadline => w.checkWaiter j x on deadline
    | .ended => w

end TimedTasks.World

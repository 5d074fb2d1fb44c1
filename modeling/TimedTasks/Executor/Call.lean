import TimedTasks.Executor.View
import TimedTasks.Settings.Document
/-!
Calls by name. `perform` makes one call on a run and tells its answer; it is the same for a caller
outside and for the body of a task.
-/

namespace TimedTasks.World

variable {V : Type}

/-- Gives a future a name, in place of any other future of that name. -/
def nameFuture (w : World V) (name : String) (h : Handle) : World V :=
  { w with futureNames := w.futureNames.put name h }

/-- The answer to a task that was handed in; the future of an accepted one gets its name. -/
def accepted (name : String) (kind : HandleKind) :
    World V × Except TaskError Nat → World V × Answer V
  | (w, .ok c) => (w.nameFuture name ⟨c, kind⟩, .done)
  | (w, .error e) => (w, .error e)

/-- Starts a waiter. -/
def addWaiter (w : World V) (name : String) (request : Request V) : World V :=
  let j := w.waiters.length
  let waiter : Waiter V := { name, request }
  { w with
    waiters := w.waiters ++ [waiter]
    waiterNames := w.waiterNames.put name j }.enqueue (.waiter j)

/-- The settings of a document, or the usual ones, with single choices on top of them. -/
def chosenSettings (document name : Option String) (keepPeriodic keepDelayed : Option Bool) :
    Except TaskError Settings := do
  let base ← (document.map Settings.ofDocument).getD (.ok {})
  (base.override name keepPeriodic keepDelayed).checked

/-- Builds an executor and gives it a name. -/
def create (w : World V) (name : String) (document override : Option String)
    (keepPeriodic keepDelayed : Option Bool) : World V × Answer V :=
  match chosenSettings document override keepPeriodic keepDelayed with
  | .error e => (w, .error e)
  | .ok s =>
    let (w, e) := w.addExecutor s
    ({ w with executorNames := w.executorNames.put name e }, .settings s)

/-- Gives a waiter up. It takes no turn any more. -/
def abort (w : World V) (name : String) : World V × Answer V :=
  match w.waiterNames.get? name with
  | none => (w, .absent)
  | some j =>
    ({ w.modifyWaiter j (fun x => { x with stage := .ended }) with
      waiterNames := w.waiterNames.erase name
      waiting := w.waiting.filter (· != .waiter j) }, .done)

/-- Reads a cell, or parks a thread until it is settled. -/
def blockingGet (w : World V) (thread : String) (c : Nat) : World V × Answer V :=
  match w.read? c with
  | some r => (w, .read r)
  | none => ({ w with threadNames := w.threadNames.put thread c }, .parked)

/-- What a parked thread got, once there is something. -/
def threadJoin (w : World V) (thread : String) : World V × Answer V :=
  match w.threadNames.get? thread with
  | none => (w, .absent)
  | some c =>
    match w.read? c with
    | some r => ({ w with threadNames := w.threadNames.erase thread }, .read r)
    | none => (w, .parked)

/-- A call on an executor that is meant by name. -/
def onExecutor (w : World V) (name : String) (f : Nat → World V × Answer V) :
    World V × Answer V :=
  match w.executor name with
  | .ok e => f e
  | .error p => (w, .panic p)

/-- A call on a future that is meant by name. -/
def onFuture (w : World V) (name : String) (f : Handle → World V × Answer V) :
    World V × Answer V :=
  match w.future name with
  | .ok h => f h
  | .error p => (w, .panic p)

/-- The answer of a call that changes nothing. -/
def answer {α : Type} (w : World V) (f : α → Answer V) : Except Panic α → World V × Answer V
  | .ok a => (w, f a)
  | .error p => (w, .panic p)

/-- Whether an executor was shut down, and whether it has terminated. -/
def lifecycle (w : World V) (e : Nat) : Answer V := .lifecycle (w.isShutdown e) (w.isTerminated e)

/-- Makes a call. -/
def perform (w : World V) : Call V → World V × Answer V
  | .create executor document name keepPeriodic keepDelayed =>
    w.create executor document name keepPeriodic keepDelayed
  | .execute executor task body =>
    w.onExecutor executor fun e =>
      match w.submit e task .unwanted body with
      | (w, .ok _) => (w, .done)
      | (w, .error err) => (w, .error err)
  | .submit executor future instead body =>
    w.onExecutor executor fun e =>
      accepted future .plain
        (w.submit e future (match instead with | none => .own | some v => .instead v) body)
  | .schedule executor future delay body =>
    w.onExecutor executor fun e => accepted future .delayed (w.schedule e future delay body)
  | .repeating executor future pace initial runs =>
    w.onExecutor executor fun e =>
      accepted future .periodic (w.scheduleRepeating e future pace initial runs)
  | .cancel future interrupt =>
    w.onFuture future fun h =>
      let (w, granted) := w.cancel h.cell interrupt
      (w, .flag granted)
  | .share future name => w.onFuture future fun h => (w.nameFuture name h, .done)
  | .shareTask future name =>
    w.onFuture future fun h => (w.nameFuture name { h with kind := .plain }, .done)
  | .forget future =>
    w.onFuture future fun _ => ({ w with futureNames := w.futureNames.erase future }, .done)
  | .inspect future => w.onFuture future fun h => (w, .future (w.futureView h))
  | .delay future none =>
    w.answer .delays ((w.timed future).map fun x => TimeUnit.all.map (w.delayIn x.2))
  | .delay future (some u) => w.answer .delay ((w.timed future).map fun x => w.delayIn x.2 u)
  | .dueTime future => w.answer .time ((w.timed future).map fun x => x.2.due)
  | .compare a b => w.answer .comparison (w.compareFutures a b)
  | .compareFixed future amount unit due =>
    w.answer .order (w.compareFixed future amount unit due)
  | .sort futures => w.answer .names (w.sorted futures)
  | .get waiter future bound =>
    w.onFuture future fun h => (w.addWaiter waiter (.get h.cell bound), .done)
  | .awaitTermination waiter executor bound =>
    w.onExecutor executor fun e => (w.addWaiter waiter (.termination e bound), .done)
  | .invokeAll waiter executor bodies bound =>
    w.onExecutor executor fun e => (w.addWaiter waiter (.invokeAll e bodies bound), .done)
  | .invokeAny waiter executor bodies bound =>
    w.onExecutor executor fun e => (w.addWaiter waiter (.invokeAny e bodies bound), .done)
  | .abort waiter => w.abort waiter
  | .blockingGet thread future => w.onFuture future fun h => w.blockingGet thread h.cell
  | .threadJoin thread => w.threadJoin thread
  | .shutdown executor =>
    w.onExecutor executor fun e =>
      let w := w.shutdown e
      (w, w.lifecycle e)
  | .shutdownNow executor =>
    w.onExecutor executor fun e =>
      let w := w.shutdownNow e
      (w, .halted 0 (w.isShutdown e) (w.isTerminated e))
  | .lifecycle executor => w.onExecutor executor fun e => (w, w.lifecycle e)
  | .describe executor => w.onExecutor executor fun e => (w, .executor (w.executorView e))
  | .stats executor => w.onExecutor executor fun e => (w, .stats (w.statsOf e))

end TimedTasks.World

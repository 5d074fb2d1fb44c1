import TimedTasks.Executor.Waiter
/-!
Turns. The task at the head of `ready` takes its turn, which changes the state and may make other
tasks ready behind it; `quiesce` lets turns be taken until no task is ready. While the clock stands
still every turn uses up some of the work that is left: a step of a body, a run that is due, a
child, waiter or watcher that ends. `workload` adds up what can be left, so that many turns are
always enough.
-/

namespace TimedTasks

mutual

/-- The most tasks that a step can make ready, now or later, while the clock stands still. -/
def Step.load {V : Type} : Step V → Nat
  | .sleep _ | .ok _ | .err _ | .panic | .pending => 0
  | .get _ | .join _ => 1
  | .act c => c.load

/-- What the steps of a body can make ready. -/
def Step.loads {V : Type} : List (Step V) → Nat
  | [] => 0
  | s :: rest => s.load + Step.loads rest

def Body.load {V : Type} : Body V → Nat
  | .broken => 0
  | .steps s => Step.loads s

def Body.loads {V : Type} : List (Body V) → Nat
  | [] => 0
  | b :: rest => b.load + Body.loads rest

/-- A call makes a child or a waiter ready, which may be woken once more besides what its body
does; a new executor may get a watcher, which is woken once. -/
def Call.load {V : Type} : Call V → Nat
  | .create .. => 2
  | .execute _ _ body | .submit _ _ _ body | .schedule _ _ _ body => 2 + body.load
  | .repeating _ _ _ _ runs => 2 + 2 * Body.loads runs
  | .get .. | .awaitTermination .. => 2
  | .invokeAll _ _ bodies _ | .invokeAny _ _ bodies _ =>
    2 + 2 * bodies.length + Body.loads bodies
  | _ => 0

end

namespace Child

/-- What a child can still make ready while the clock stands still, itself included. -/
def load {V : Type} (c : Child V) : Nat :=
  match c.stage, c.work with
  | .ended, _ => 0
  | .suspended on rest, .periodic _ runs =>
    2 + (match on with | .cell .. => 1 | _ => 0) + Step.loads rest + 2 * Body.loads runs
  | .suspended on rest, _ => 2 + (match on with | .cell .. => 1 | _ => 0) + Step.loads rest
  | .stranded, _ => 2
  | _, .periodic _ runs => 2 + 2 * Body.loads runs
  | _, .once _ body | _, .delayed _ body | _, .oneOfAll _ body | _, .oneOfAny _ body =>
    2 + body.load

end Child

namespace Waiter

def load {V : Type} (x : Waiter V) : Nat :=
  match x.stage, x.request with
  | .ended, _ => 0
  | .created, .invokeAll _ bodies _ | .created, .invokeAny _ bodies _ =>
    2 + 2 * bodies.length + Body.loads bodies
  | _, _ => 2

end Waiter

namespace World

variable {V : Type}

/-- The turn of the watcher for the termination of an executor. -/
def watcherTurn (w : World V) (e : Nat) : World V :=
  if w.isDrained e then w.markTerminated e else w.suspend (.watcher e)

/-- The turn of a task. -/
def taskTurn (w : World V) : TaskRef → World V
  | .child i => w.childTurn i
  | .waiter j => w.waiterTurn j
  | .watcher e => w.watcherTurn e

/-- The task that is ready first takes its turn. -/
def turn (w : World V) : World V :=
  match w.ready with
  | [] => w
  | r :: rest => { w with ready := rest }.taskTurn r

/-- Lets turns be taken, at most `n` of them, while a task is ready. -/
def turns (w : World V) : (n : Nat) → World V
  | 0 => w
  | n + 1 => if w.ready.isEmpty then w else w.turn.turns n

/-- The sum of what the members of a list can make ready. -/
def total {α : Type} (load : α → Nat) : List α → Nat
  | [] => 0
  | a :: rest => load a + total load rest

/-- A bound on the turns that can be taken before the clock moves again. -/
def workload (w : World V) : Nat :=
  w.ready.length + total Child.load w.children + total Waiter.load w.waiters +
    2 * w.executors.length

/-- Lets turns be taken until no task is ready. -/
def quiesce (w : World V) : World V := w.turns w.workload

end World

end TimedTasks

import TimedTasks.Executor.Passage
/-!
A scenario: steps taken one after the other from outside, and what each of them showed. A step is a
call, after which nothing runs, or a movement of the clock, which lets tasks run.
-/

namespace TimedTasks

inductive ScenarioStep (V : Type) where
  | call (c : Call V)
  | advance (d : Duration)
  | setElapsed (t : Duration)
  /-- Lets tasks run without moving the clock. -/
  | settle

/-- What a step showed. -/
structure Observation (V : Type) where
  /-- The answer of a call; a movement of the clock has none unless it broke off. -/
  answer : Option (Answer V)
  time : Instant
  /-- What tasks and waiters did during the step, by time, then by name. -/
  log : List (Entry V)
  executors : List (String × Lifecycle × Stats)
  futures : List (String × Option Ending)
  reports : List Report

namespace World

variable {V : Type}

/-- Takes a step. -/
def take (w : World V) : ScenarioStep V → World V × Option (Answer V)
  | .call c =>
    let (w, a) := w.perform c
    (w, some a)
  | .advance d =>
    let (w, p) := w.advance d
    (w, p.map .panic)
  | .setElapsed t => (w.setElapsed t, none)
  | .settle => (w.quiesce, none)

/-- Entries by time, then by name; entries of one name keep their order. -/
def inOrder (l : List (Entry V)) : List (Entry V) :=
  l.mergeSort fun a b => a.time < b.time || (a.time == b.time && (compare a.who b.who).isLE)

/-- What can be seen after a step that led from one state to another. -/
def observe (before after : World V) (answer : Option (Answer V)) : Observation V where
  answer := answer
  time := after.now
  log := inOrder (after.log.drop before.log.length)
  executors := after.executorNames.map fun x =>
    (x.1, (after.stateOf? x.2).getD .terminated, after.statsOf x.2)
  futures := after.futureNames.map fun x => (x.1, after.endingOf x.2.cell)
  reports := (after.notices.drop before.notices.length).map Notice.report

/-- Takes the steps of a scenario in order. -/
def observations (w : World V) : List (ScenarioStep V) → List (Observation V)
  | [] => []
  | s :: rest =>
    let (after, answer) := w.take s
    w.observe after answer :: after.observations rest

end World

/-- What the steps of a scenario show, from the start of a run. -/
def Scenario.run {V : Type} (jumps : Bool) (steps : List (ScenarioStep V)) :
    List (Observation V) :=
  (World.start jumps).observations steps

end TimedTasks

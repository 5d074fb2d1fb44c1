import Mathlib.Logic.Relation
import TimedTasks.Executor.Passage
import TimedTasks.Proofs.Effects
/-!
A run, one operation at a time. A call or a turn is made of several operations, and a body makes
its calls in the middle of its turn. `Op` lists the operations, each with who acts before and after
it and with what is known when it is done; `Reached` holds of every state on the way. A property
that no operation breaks holds in all of them.
-/

namespace TimedTasks

/-- Who acts. -/
inductive Focus where
  /-- A caller: the body of a child, in the middle of its turn, or someone outside. -/
  | caller (body : Option Nat)
  /-- Such a caller, in the middle of the shutdown of an executor. -/
  | shutting (body : Option Nat) (e : Nat)
  /-- The task whose turn it is, while no body goes on. -/
  | turn (r : TaskRef)

namespace Focus

/-- The task whose turn it is. -/
def task? : Focus → Option TaskRef
  | caller body | shutting body _ => body.map .child
  | turn r => some r

/-- The child whose body goes on. -/
def body? : Focus → Option Nat
  | caller body | shutting body _ => body
  | turn _ => none

end Focus

/-- Whether a child may be in a stage. -/
def Stage.Suits {V : Type} : Stage V → Work V → Prop
  | .scheduled due, .delayed due' _ => due = due'
  | .scheduled _, work => work.kind = .periodic
  | .stranded, work => work.kind = .periodic
  | _, _ => True

theorem Stage.suits_scheduled {V : Type} {work : Work V} (hk : work.kind = .periodic)
    (due : Instant) : (Stage.scheduled (V := V) due).Suits work := by
  cases work with
  | delayed due' body => cases hk
  | _ => exact hk

/-- Whether a waiter with a request waits for something. -/
def Request.Suits {V : Type} : Request V → Awaited → Prop
  | .get c _, on => on = .cell c
  | .termination e _, on => on = .termination e
  | .invokeAll .., on | .invokeAny .., on => ∃ b, on = .batch b

/-- Whether a waiter looks for something, until a deadline, in its first turn or again. -/
def Waiter.Looks {V : Type} (x : Waiter V) (on : Awaited) (deadline : Option Instant) : Prop :=
  x.stage = .created ∨ x.stage = .waiting on deadline

theorem Waiter.Looks.ne_ended {V : Type} {x : Waiter V} {on : Awaited} {deadline : Option Instant}
    (h : x.Looks on deadline) : x.stage ≠ .ended := by
  rcases h with h | h <;> rw [h] <;> simp

/-- Whether a suspended body waits for one of the first `n` cells, if for any. -/
def Wait.Within (n : Nat) : Wait → Prop
  | .cell c _ => c < n
  | _ => True

/-- Whether what a suspended body waits for has not come. -/
def Wait.Pending {V : Type} (w : World V) : Wait → Prop
  | .time t => w.now < t
  | .cell c _ => w.isSettled c = false
  | .forever => True

/-- Whether a waiter asks for one of the first `n` cells, if for any. -/
def Request.Within {V : Type} (n : Nat) : Request V → Prop
  | .get c _ => c < n
  | _ => True

namespace World

variable {V : Type}

/-- The time before which no run of a child may start. -/
def dueTime (w : World V) (child : Child V) : Instant :=
  match child.work with
  | .delayed due _ => due
  | .periodic .. => ((w.markOf? child.cell).map (·.due)).getD w.now
  | _ => 0

/-- Counts the start of a run of a periodic child. -/
def countRun (w : World V) (i : Nat) (child : Child V) : World V :=
  match child.work with
  | .periodic .. => w.modifyChild i fun x => { x with runs := x.runs + 1 }
  | _ => w

/-- Whether a task has nothing left to do. -/
def IsOver (w : World V) : TaskRef → Prop
  | .child i => ∀ child, w.children[i]? = some child → child.hasEnded
  | .waiter j => ∀ x, w.waiters[j]? = some x → x.stage = .ended
  | .watcher _ => False

end World

open World

variable {V : Type}

/-- One operation of a run. -/
inductive Op : Focus → World V → Focus → World V → Prop
  /-- Names for futures, waiters and threads, and texts, on which nothing depends. -/
  | quiet {f w} (futures : Names Handle) (waiters threads : Names Nat) (log : List (Entry V))
      (notices : List Notice) (hf : ∀ p ∈ futures, p.2.cell < w.cells.length) :
      Op f w f { w with
        futureNames := futures, waiterNames := waiters, threadNames := threads
        log := log, notices := notices }
  -- calls
  | create {b w} (name : String) (s : Settings) :
      Op (.caller b) w (.caller b)
        { (w.addExecutor s).1 with
          executorNames := w.executorNames.put name w.executors.length }
  | refuse {f w} (e : Nat) : Op f w f (w.reject e).1
  | enrol {b w e} (name : String) {work : Work V} (mark : Option Mark)
      (hr : w.isRunning e = true) (hb : work.batch? = none) :
      Op (.caller b) w (.caller b) (w.addChild e name work mark).1
  | await {b w} (name : String) {request : Request V} (hq : request.Within w.cells.length) :
      Op (.caller b) w (.caller b) (w.addWaiter name request)
  | abort {b w} (j : Nat) :
      Op (.caller b) w (.caller b)
        { w.modifyWaiter j (fun x => { x with stage := .ended }) with
          waiting := w.waiting.filter (· != .waiter j) }
  | cancel {f w c interrupt} (hg : w.cancellable c interrupt = true) :
      Op f w f (w.cancel c interrupt).1
  | ask {b w e} (he : e < w.executors.length) (hr : w.isRunning e = false) :
      Op (.caller b) w (.caller b) (w.record (.asked e))
  | drain {b w e} (hr : w.isRunning e = true) :
      Op (.caller b) w (.shutting b e)
        (((w.record (.asked e)).modifyExecutor e fun x => { x with state := .draining }).record
          (.draining e))
  | close {b w e x} (hx : w.executors[e]? = some x) (h0 : x.tracked = 0) :
      Op (.shutting b e) w (.caller b)
        ((w.modifyExecutor e fun x => { x with closed := true }).markTerminated e)
  | watch {b w e x} (hx : w.executors[e]? = some x) (h0 : x.tracked ≠ 0) :
      Op (.shutting b e) w (.caller b)
        ((w.modifyExecutor e fun x => { x with closed := true }).enqueue (.watcher e))
  -- between turns
  | take {w r rest} (hr : w.ready = r :: rest) :
      Op (.caller none) w (.turn r) { w with ready := rest }
  | leave {w r} (hr : w.IsOver r) : Op (.turn r) w (.caller none) w
  | clock {w t} (ht : w.clock.elapsed ≤ t) : Op (.caller none) w (.caller none) (w.moveTo t)
  -- the turn of a child
  | start {w i child} (hc : w.children[i]? = some child) (he : child.hasEnded = false)
      (hm : w.mayStart child.cell = true) (hs : w.isSignalled child.cell = false)
      (hr : w.mayRun child.executor child.work.kind = true) (hd : w.dueTime child ≤ w.now) :
      Op (.turn (.child i)) w (.caller (some i))
        (((w.countRun i child).beginRun child.cell).record (.called child.cell))
  | poll {w i child} (hc : w.children[i]? = some child) :
      Op (.caller (some i)) w (.caller (some i)) (w.record (.polled child.cell))
  | resume {w i child on rest} (hc : w.children[i]? = some child)
      (he : child.stage = .suspended on rest) (hs : w.isSignalled child.cell = false) :
      Op (.turn (.child i)) w (.caller (some i)) (w.record (.polled child.cell))
  | drop {w i child on rest} (hc : w.children[i]? = some child)
      (he : child.stage = .suspended on rest) (hs : w.isSignalled child.cell = true) :
      Op (.turn (.child i)) w (.turn (.child i)) (w.endRun child.cell)
  | pause {w i child on} (rest : List (Step V)) (hc : w.children[i]? = some child)
      (he : child.hasEnded = false) (ho : on.Within w.cells.length) (hp : on.Pending w) :
      Op (.caller (some i)) w (.caller none) (w.parkChild i (.suspended on rest))
  | again {w i child} (value : Option V) (hc : w.children[i]? = some child)
      (hk : child.work.kind = .periodic) :
      Op (.caller (some i)) w (.turn (.child i))
        ((w.endRun child.cell).record (.ended child.cell (.returned value)))
  | remark {w i child} (next : Instant) (hc : w.children[i]? = some child)
      (hk : child.work.kind = .periodic) :
      Op (.turn (.child i)) w (.turn (.child i))
        (w.modifyCell child.cell fun cell =>
          { cell with mark := cell.mark.map fun m => .ofInstant m.origin next })
  | sleep {w i child s} (hc : w.children[i]? = some child) (he : child.hasEnded = false)
      (hp : (w.cells[child.cell]?.map (·.phase)) ≠ some .running)
      (hs : s = .stranded ∨ ∃ due, s = .scheduled due ∧ w.now < due) (hk : s.Suits child.work) :
      Op (.turn (.child i)) w (.caller none) (w.parkChild i s)
  | yield {w i child} (hc : w.children[i]? = some child) (he : child.hasEnded = false)
      (hp : (w.cells[child.cell]?.map (·.phase)) ≠ some .running)
      (hk : child.work.kind = .periodic) :
      Op (.turn (.child i)) w (.caller none)
        ((w.setStage i (.scheduled w.now)).enqueue (.child i))
  | finish {w i child r} (hc : w.children[i]? = some child) (he : child.hasEnded = false)
      (hr : r ≠ .stopped) (hk : child.work.kind = .periodic → ∀ value, r ≠ .returned value) :
      Op (.caller (some i)) w (.caller none)
        ((w.modifyCell child.cell (·.leave r)).finish i child r)
  | stop {w i child} (hc : w.children[i]? = some child) (he : child.hasEnded = false)
      (hb : w.isSettled child.cell = true ∨ w.mayRun child.executor child.work.kind = false) :
      Op (.turn (.child i)) w (.caller none) (w.finish i child .stopped)
  -- the turn of a waiter
  | openBatch {w j e work bodies} (name : String) (hr : w.isRunning e = true)
      (hw : work = .oneOfAll ∨ work = .oneOfAny) (hn : bodies ≠ []) :
      Op (.turn (.waiter j)) w (.turn (.waiter j)) (w.openBatch e name work bodies)
  | grant {w j} (count : Nat) :
      Op (.turn (.waiter j)) w (.turn (.waiter j)) (w.addCancelledCells count).1
  | wait {w j x on deadline} (hx : w.waiters[j]? = some x) (he : x.Looks on deadline)
      (hq : x.request.Suits on) (hb : ∀ b, on = .batch b → b < w.batches.length)
      (hc : w.hasCome on = false)
      (hd : ∀ t, deadline = some t → w.now < t) :
      Op (.turn (.waiter j)) w (.caller none)
        ((w.modifyWaiter j fun y => { y with stage := .waiting on deadline }).suspend (.waiter j))
  | answer {w j} :
      Op (.turn (.waiter j)) w (.caller none)
        (w.modifyWaiter j fun y => { y with stage := .ended })
  -- the turn of a watcher
  | linger {w e} (hd : w.isDrained e = false) :
      Op (.turn (.watcher e)) w (.caller none) (w.suspend (.watcher e))
  | terminate {w e} (hd : w.isDrained e = true) :
      Op (.turn (.watcher e)) w (.caller none) (w.markTerminated e)

/-- A child that goes to sleep has not ended. -/
theorem Child.hasEnded_of_sleep {now : Instant} {s : Stage V}
    (hs : s = .stranded ∨ ∃ due, s = .scheduled due ∧ now < due) (x : Child V) :
    ({ x with stage := s } : Child V).hasEnded = false := by
  rcases hs with rfl | ⟨due, rfl, -⟩ <;> rfl

/-- Some operations, one after the other. -/
def Ops (f : Focus) (w : World V) (f' : Focus) (w' : World V) : Prop :=
  Relation.ReflTransGen (fun a b : Focus × World V => Op a.1 a.2 b.1 b.2) (f, w) (f', w')

/-- The states of a run that has come from its start. -/
def Reached (f : Focus) (w : World V) : Prop := ∃ jumps, Ops (.caller none) (start jumps) f w

variable {f f' f'' : Focus} {w w' w'' : World V}

theorem Ops.refl : Ops f w f w := Relation.ReflTransGen.refl

theorem Ops.trans (h : Ops f w f' w') (h' : Ops f' w' f'' w'') : Ops f w f'' w'' :=
  Relation.ReflTransGen.trans h h'

theorem Op.ops (h : Op f w f' w') : Ops f w f' w' := Relation.ReflTransGen.single h

theorem Reached.ops (h : Reached f w) (h' : Ops f w f' w') : Reached f' w' := by
  obtain ⟨jumps, hs⟩ := h
  exact ⟨jumps, hs.trans h'⟩

theorem Reached.op (h : Reached f w) (h' : Op f w f' w') : Reached f' w' := h.ops h'.ops

theorem Reached.start (jumps : Bool) : Reached (.caller none) (World.start (V := V) jumps) :=
  ⟨jumps, .refl⟩

/-- What every operation keeps, in a run from its start, holds later of what it holds of now. -/
theorem Ops.induct {P : Focus → World V → Prop} (h : Ops f w f' w') (hr : Reached f w)
    (base : P f w)
    (step : ∀ {f₁ w₁ f₂ w₂}, Reached f₁ w₁ → Op f₁ w₁ f₂ w₂ → P f₁ w₁ → P f₂ w₂) : P f' w' := by
  suffices ∀ b : Focus × World V,
      Relation.ReflTransGen (fun a b : Focus × World V => Op a.1 a.2 b.1 b.2) (f, w) b →
        Reached b.1 b.2 ∧ P b.1 b.2 from (this (f', w') h).2
  intro b hb
  induction hb with
  | refl => exact ⟨hr, base⟩
  | tail _ ho ih => exact ⟨ih.1.op ho, step ih.1 ho ih.2⟩

/-- What holds at the start of a run and is kept by every operation holds in all its states. -/
theorem Reached.induct {P : Focus → World V → Prop} (h : Reached f w)
    (init : ∀ jumps, P (.caller none) (World.start jumps))
    (step : ∀ {f₁ w₁ f₂ w₂}, Reached f₁ w₁ → Op f₁ w₁ f₂ w₂ → P f₁ w₁ → P f₂ w₂) : P f w := by
  obtain ⟨jumps, hs⟩ := h
  exact hs.induct (.start jumps) (init jumps) step

end TimedTasks

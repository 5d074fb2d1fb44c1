import TimedTasks.Executor.Turn
/-!
What each operation does to each part of the state. An operation changes one cell, one child, one
executor or one batch by a function of its old value, or adds some at the end; it moves tasks from
`waiting` to `ready`; and it leaves everything else as it was.
-/

namespace TimedTasks

namespace RunEnd

/-- What the end of a run settles the cell of its task with. -/
def outcome? {V : Type} : RunEnd V → Option (Outcome V)
  | returned value => some (.completed value)
  | failed cause => some (.failed cause)
  | stopped => some .cancelled
  | panicked => none

end RunEnd

namespace Cell

variable {V : Type}

def settleBy (o : Option (Outcome V)) (cell : Cell V) : Cell V :=
  { cell with outcome := cell.outcome.or o }

theorem settleBy_of_settled {cell : Cell V} {o : Option (Outcome V)}
    (h : cell.outcome.isSome) : cell.settleBy o = cell := by
  obtain ⟨outcome, phase, token, mark⟩ := cell
  cases outcome with
  | none => cases h
  | some o' => rfl

theorem settleBy_of_unsettled {cell : Cell V} {o : Option (Outcome V)}
    (h : cell.outcome = none) : cell.settleBy o = { cell with outcome := o } := by
  simp [settleBy, h]

/-- Whether a request to cancel is granted. -/
def grants (interrupt : Bool) (cell : Cell V) : Bool :=
  cell.outcome.isNone && (interrupt || cell.phase == .idle)

def cancelBy (interrupt : Bool) (cell : Cell V) : Cell V :=
  if cell.grants interrupt then
    { cell with outcome := some .cancelled, phase := .closed, token := true }
  else cell

/-- The cell of a task whose run has ended. A body that broke off leaves its run open. -/
def leave (r : RunEnd V) (cell : Cell V) : Cell V :=
  match r with
  | .panicked => cell
  | _ => { cell with phase := if cell.phase = .running then .idle else cell.phase }

/-- The cell of a task whose last run has ended. -/
def conclude (r : RunEnd V) (cell : Cell V) : Cell V := (cell.settleBy r.outcome?).cancelBy true

end Cell

namespace Work

variable {V : Type}

/-- The batch that a task belongs to. -/
def batch? : Work V → Option Nat
  | once .. | delayed .. | periodic .. => none
  | oneOfAll b _ | oneOfAny b _ => some b

end Work

namespace Batch

variable {V : Type}

def hear (r : RunEnd V) (x : Batch V) : Batch V :=
  match r with
  | .returned value =>
    if x.winner.isNone then { x with winner := some value, notified := true } else x
  | .failed cause => { x with lastFailure := some cause }
  | _ => x

def countDown (x : Batch V) : Batch V :=
  { x with remaining := x.remaining - 1, notified := x.notified || x.remaining - 1 == 0 }

end Batch

namespace Work

/-- What the end of one of its tasks does to a batch. -/
def tell {V : Type} (r : RunEnd V) : Work V → Batch V → Batch V
  | oneOfAny .., x => (x.hear r).countDown
  | _, x => x.countDown

end Work

def Child.hasEnded {V : Type} (child : Child V) : Bool :=
  match child.stage with
  | .ended => true
  | _ => false

namespace Executor

/-- The executor of a child that has ended. -/
def discharge (i : Nat) (ending : Option Ending) (x : Executor) : Executor :=
  { x with
    registry := x.registry.erase i
    counters := World.countEnding x.counters ending
    tracked := x.tracked - 1 }

end Executor

theorem modify_congr {α : Type} {l : List α} {i : Nat} {f g : α → α}
    (h : ∀ a, l[i]? = some a → f a = g a) : l.modify i f = l.modify i g := by
  apply List.ext_getElem?
  intro j
  rw [List.getElem?_modify, List.getElem?_modify]
  by_cases hij : i = j
  · subst hij
    cases hl : l[i]? with
    | none => rfl
    | some a => simp [h a hl]
  · simp [hij]

theorem modify_eq_self_of {α : Type} {l : List α} {i : Nat} {f : α → α}
    (h : ∀ a, l[i]? = some a → f a = a) : l.modify i f = l :=
  (modify_congr h).trans (List.modify_id i l)

namespace World

variable {V : Type}

/-! ## Cells -/

theorem isSettled_eq (w : World V) (c : Nat) :
    w.isSettled c = (w.cells[c]?.map (·.outcome.isSome)).getD false := by
  unfold isSettled outcomeOf
  cases w.cells[c]? <;> rfl

theorem settle_frame (w : World V) (c : Nat) (o : Outcome V) :
    (w.settle c o).clock = w.clock ∧ (w.settle c o).executors = w.executors ∧
    (w.settle c o).children = w.children ∧ (w.settle c o).waiters = w.waiters ∧
    (w.settle c o).batches = w.batches ∧ (w.settle c o).executorNames = w.executorNames ∧
    (w.settle c o).history = w.history ∧
    (w.settle c o).futureNames = w.futureNames := by
  unfold settle
  split <;> exact ⟨rfl, rfl, rfl, rfl, rfl, rfl, rfl, rfl⟩

theorem settle_cells (w : World V) (c : Nat) (o : Outcome V) :
    (w.settle c o).cells = w.cells.modify c (·.settleBy (some o)) := by
  have hs := w.isSettled_eq c
  unfold settle
  split
  · rename_i h
    refine (modify_eq_self_of fun cell hc => ?_).symm
    rw [h, hc] at hs
    exact Cell.settleBy_of_settled hs.symm
  · rename_i h
    apply modify_congr
    intro cell hc
    rw [hc] at hs
    exact (Cell.settleBy_of_unsettled (by simpa [hs] using h)).symm

theorem signal_frame (w : World V) (c : Nat) :
    (w.signal c).clock = w.clock ∧ (w.signal c).executors = w.executors ∧
    (w.signal c).children = w.children ∧ (w.signal c).waiters = w.waiters ∧
    (w.signal c).batches = w.batches ∧ (w.signal c).executorNames = w.executorNames ∧
    (w.signal c).history = w.history ∧
    (w.signal c).futureNames = w.futureNames := by
  unfold signal
  split <;> exact ⟨rfl, rfl, rfl, rfl, rfl, rfl, rfl, rfl⟩

theorem signal_cells (w : World V) (c : Nat) :
    (w.signal c).cells = w.cells.modify c fun cell => { cell with token := true } := by
  unfold signal
  split
  · rename_i h
    refine (modify_eq_self_of fun cell hc => ?_).symm
    have ht : cell.token = true := by simpa [isSignalled, hc] using h
    rw [← ht]
  · rfl

theorem cancellable_eq (w : World V) (c : Nat) (interrupt : Bool) :
    w.cancellable c interrupt = (w.cells[c]?.map (·.grants interrupt)).getD false := by
  unfold cancellable
  cases w.cells[c]? <;> rfl

theorem cancel_snd (w : World V) (c : Nat) (interrupt : Bool) :
    (w.cancel c interrupt).2 = w.cancellable c interrupt := by
  unfold cancel
  split
  · rename_i h; exact h.symm
  · rename_i h; exact (by simpa using h : w.cancellable c interrupt = false).symm

/-- A request that is not granted changes nothing. -/
theorem cancel_refused {w : World V} {c : Nat} {interrupt : Bool}
    (h : w.cancellable c interrupt = false) : w.cancel c interrupt = (w, false) := by
  simp [cancel, h]

theorem cancel_frame (w : World V) (c : Nat) (interrupt : Bool) :
    (w.cancel c interrupt).1.clock = w.clock ∧
    (w.cancel c interrupt).1.executors = w.executors ∧
    (w.cancel c interrupt).1.children = w.children ∧
    (w.cancel c interrupt).1.waiters = w.waiters ∧
    (w.cancel c interrupt).1.batches = w.batches ∧
    (w.cancel c interrupt).1.executorNames = w.executorNames ∧
    (w.cancel c interrupt).1.futureNames = w.futureNames := by
  unfold cancel
  split
  · simp [record, signal_frame, settle_frame, modifyCell]
  · exact ⟨rfl, rfl, rfl, rfl, rfl, rfl, rfl⟩

theorem cancel_cells (w : World V) (c : Nat) (interrupt : Bool) :
    (w.cancel c interrupt).1.cells = w.cells.modify c (·.cancelBy interrupt) := by
  have hg := w.cancellable_eq c interrupt
  unfold cancel
  split
  · rename_i h
    simp only [record, signal_cells, settle_cells, modifyCell, List.modify_modify_eq]
    apply modify_congr
    intro cell hc
    have ht : cell.grants interrupt = true := by simpa [h, hc] using hg.symm
    have ho : cell.outcome = none := by
      simp only [Cell.grants, Bool.and_eq_true, Option.isNone_iff_eq_none] at ht
      exact ht.1
    simp [Cell.cancelBy, ht, Cell.settleBy, ho]
  · rename_i h
    refine (modify_eq_self_of fun cell hc => ?_).symm
    have ht : cell.grants interrupt = false := by simpa [h, hc] using hg.symm
    simp [Cell.cancelBy, ht]

theorem cancel_history (w : World V) (c : Nat) (interrupt : Bool) :
    (w.cancel c interrupt).1.history =
      w.history ++ if w.cancellable c interrupt then [(w.now, .cancelled c)] else [] := by
  unfold cancel
  split <;> simp [record, signal_frame, settle_frame, modifyCell, now]

theorem cancel_history_of_granted {w : World V} {c : Nat} {interrupt : Bool}
    (hg : w.cancellable c interrupt = true) :
    (w.cancel c interrupt).1.history = w.history ++ [(w.now, .cancelled c)] := by
  rw [cancel_history, if_pos hg]

theorem settleRun_frame (w : World V) (c : Nat) (r : RunEnd V) :
    (w.settleRun c r).clock = w.clock ∧ (w.settleRun c r).executors = w.executors ∧
    (w.settleRun c r).children = w.children ∧ (w.settleRun c r).waiters = w.waiters ∧
    (w.settleRun c r).batches = w.batches ∧
    (w.settleRun c r).executorNames = w.executorNames ∧
    (w.settleRun c r).history = w.history ∧
    (w.settleRun c r).futureNames = w.futureNames := by
  cases r with
  | panicked => exact ⟨rfl, rfl, rfl, rfl, rfl, rfl, rfl, rfl⟩
  | _ => exact settle_frame ..

theorem settleRun_cells (w : World V) (c : Nat) (r : RunEnd V) :
    (w.settleRun c r).cells = w.cells.modify c (·.settleBy r.outcome?) := by
  cases r with
  | panicked =>
    refine (modify_eq_self_of fun cell _ => ?_).symm
    simp [Cell.settleBy, RunEnd.outcome?]
  | _ => exact settle_cells ..

/-! ## Batches -/

theorem tellBatch_frame (w : World V) (b : Nat) (r : RunEnd V) :
    (w.tellBatch b r).clock = w.clock ∧ (w.tellBatch b r).executors = w.executors ∧
    (w.tellBatch b r).cells = w.cells ∧ (w.tellBatch b r).children = w.children ∧
    (w.tellBatch b r).waiters = w.waiters ∧
    (w.tellBatch b r).executorNames = w.executorNames ∧
    (w.tellBatch b r).history = w.history ∧
    (w.tellBatch b r).futureNames = w.futureNames := by
  cases r with
  | returned value =>
    simp only [tellBatch, offer]
    split
    · split <;> exact ⟨rfl, rfl, rfl, rfl, rfl, rfl, rfl, rfl⟩
    · exact ⟨rfl, rfl, rfl, rfl, rfl, rfl, rfl, rfl⟩
  | _ => exact ⟨rfl, rfl, rfl, rfl, rfl, rfl, rfl, rfl⟩

theorem tellBatch_batches (w : World V) (b : Nat) (r : RunEnd V) :
    (w.tellBatch b r).batches = w.batches.modify b (·.hear r) := by
  cases r with
  | returned value =>
    simp only [tellBatch, offer]
    split
    · rename_i x hx
      split
      · rename_i hw
        simp only [notifyBatch, wakeBatch, wake, modifyBatch, List.modify_modify_eq]
        apply modify_congr
        intro y hy
        obtain rfl : x = y := by simpa [hx] using hy
        simp [Batch.hear, hw]
      · rename_i hw
        refine (modify_eq_self_of fun y hy => ?_).symm
        obtain rfl : x = y := by simpa [hx] using hy
        simp [Batch.hear, hw]
    · rename_i hx
      exact (modify_eq_self_of fun y hy => by simp [hx] at hy).symm
  | failed cause => rfl
  | stopped => exact (modify_eq_self_of fun _ _ => rfl).symm
  | panicked => exact (modify_eq_self_of fun _ _ => rfl).symm

theorem countDown_frame (w : World V) (b : Nat) :
    (w.countDown b).clock = w.clock ∧ (w.countDown b).executors = w.executors ∧
    (w.countDown b).cells = w.cells ∧ (w.countDown b).children = w.children ∧
    (w.countDown b).waiters = w.waiters ∧ (w.countDown b).executorNames = w.executorNames ∧
    (w.countDown b).history = w.history ∧
    (w.countDown b).futureNames = w.futureNames := by
  unfold countDown
  dsimp only
  split
  · split <;> exact ⟨rfl, rfl, rfl, rfl, rfl, rfl, rfl, rfl⟩
  · exact ⟨rfl, rfl, rfl, rfl, rfl, rfl, rfl, rfl⟩

theorem countDown_batches (w : World V) (b : Nat) :
    (w.countDown b).batches = w.batches.modify b Batch.countDown := by
  unfold countDown
  dsimp only [modifyBatch]
  rw [List.getElem?_modify_eq]
  cases hx : w.batches[b]? with
  | none => exact modify_congr fun y hy => by simp [hx] at hy
  | some x =>
    dsimp only [Option.map_eq_map, Option.map_some]
    split
    · rename_i h0
      simp only [notifyBatch, wakeBatch, wake, modifyBatch, List.modify_modify_eq]
      apply modify_congr
      intro y hy
      obtain rfl : x = y := by simpa [hx] using hy
      simp [Batch.countDown, h0]
    · rename_i h0
      apply modify_congr
      intro y hy
      obtain rfl : x = y := by simpa [hx] using hy
      simp [Batch.countDown, h0]

/-! ## The end of a child -/

theorem reportUnwanted_frame (w : World V) (child : Child V) (yield : Yield V) (r : RunEnd V) :
    (w.reportUnwanted child yield r).clock = w.clock ∧
    (w.reportUnwanted child yield r).executors = w.executors ∧
    (w.reportUnwanted child yield r).cells = w.cells ∧
    (w.reportUnwanted child yield r).children = w.children ∧
    (w.reportUnwanted child yield r).waiters = w.waiters ∧
    (w.reportUnwanted child yield r).batches = w.batches ∧
    (w.reportUnwanted child yield r).ready = w.ready ∧
    (w.reportUnwanted child yield r).waiting = w.waiting ∧
    (w.reportUnwanted child yield r).executorNames = w.executorNames ∧
    (w.reportUnwanted child yield r).history = w.history ∧
    (w.reportUnwanted child yield r).futureNames = w.futureNames := by
  unfold reportUnwanted
  split
  · split <;> exact ⟨rfl, rfl, rfl, rfl, rfl, rfl, rfl, rfl, rfl, rfl, rfl⟩
  · exact ⟨rfl, rfl, rfl, rfl, rfl, rfl, rfl, rfl, rfl, rfl, rfl⟩

theorem release_frame (w : World V) (e : Nat) :
    (w.release e).clock = w.clock ∧ (w.release e).cells = w.cells ∧
    (w.release e).executors =
      w.executors.modify e (fun x => { x with tracked := x.tracked - 1 }) ∧
    (w.release e).children = w.children ∧ (w.release e).waiters = w.waiters ∧
    (w.release e).batches = w.batches ∧ (w.release e).executorNames = w.executorNames ∧
    (w.release e).history = w.history ∧
    (w.release e).futureNames = w.futureNames := by
  unfold release
  dsimp only
  split <;> exact ⟨rfl, rfl, rfl, rfl, rfl, rfl, rfl, rfl, rfl⟩

theorem endingOf_congr {w w' : World V} {c : Nat} (h : w'.cells = w.cells) :
    w'.endingOf c = w.endingOf c := by
  simp [endingOf, outcomeOf, h]

theorem endChild_frame {w : World V} {i : Nat} {child : Child V}
    (hc : w.children[i]? = some child) :
    (w.endChild i).clock = w.clock ∧
    (w.endChild i).children = w.children.modify i (fun x => { x with stage := .ended }) ∧
    (w.endChild i).waiters = w.waiters ∧ (w.endChild i).batches = w.batches ∧
    (w.endChild i).executorNames = w.executorNames ∧
    (w.endChild i).history = (w.cancel child.cell true).1.history ∧
    (w.endChild i).futureNames = w.futureNames := by
  simp [endChild, hc, release_frame, setStage, modifyChild, report, modifyExecutor, cancel_frame]

theorem endChild_cells {w : World V} {i : Nat} {child : Child V}
    (hc : w.children[i]? = some child) :
    (w.endChild i).cells = w.cells.modify child.cell (·.cancelBy true) := by
  simp [endChild, hc, release_frame, setStage, modifyChild, report, modifyExecutor, cancel_cells]

theorem endChild_executors {w : World V} {i : Nat} {child : Child V}
    (hc : w.children[i]? = some child) :
    (w.endChild i).executors =
      w.executors.modify child.executor (·.discharge i ((w.endChild i).endingOf child.cell)) := by
  have hcells : (w.endChild i).cells = (w.cancel child.cell true).1.cells :=
    (endChild_cells hc).trans (cancel_cells ..).symm
  rw [endingOf_congr hcells]
  simp [endChild, hc, release_frame, setStage, modifyChild, report, modifyExecutor, cancel_frame,
    List.modify_modify_eq, Executor.discharge, Function.comp_def]

theorem deliver_frame (w : World V) (child : Child V) (r : RunEnd V) :
    (w.deliver child r).clock = w.clock ∧ (w.deliver child r).executors = w.executors ∧
    (w.deliver child r).children = w.children ∧ (w.deliver child r).waiters = w.waiters ∧
    (w.deliver child r).executorNames = w.executorNames ∧
    (w.deliver child r).history = w.history ++ [(w.now, .ended child.cell r)] ∧
    (w.deliver child r).futureNames = w.futureNames := by
  unfold deliver
  dsimp only
  split <;>
    simp [settleRun_frame, reportUnwanted_frame, countDown_frame, tellBatch_frame, record]

theorem deliver_cells (w : World V) (child : Child V) (r : RunEnd V) :
    (w.deliver child r).cells =
      w.cells.modify child.cell (·.settleBy (resultFor child.work r).outcome?) := by
  unfold deliver
  dsimp only
  split <;>
    simp [settleRun_cells, reportUnwanted_frame, countDown_frame, tellBatch_frame, record]

theorem deliver_batches (w : World V) (child : Child V) (r : RunEnd V) :
    (w.deliver child r).batches =
      match child.work.batch? with
      | none => w.batches
      | some b => w.batches.modify b (child.work.tell r) := by
  unfold deliver
  cases child.work <;>
    simp [Work.batch?, settleRun_frame, reportUnwanted_frame, countDown_batches, tellBatch_batches,
      record, List.modify_modify_eq, Function.comp_def] <;>
    rfl

theorem finish_frame {w : World V} {i : Nat} {child : Child V} (r : RunEnd V)
    (hc : w.children[i]? = some child) :
    (w.finish i child r).clock = w.clock ∧
    (w.finish i child r).children = w.children.modify i (fun x => { x with stage := .ended }) ∧
    (w.finish i child r).waiters = w.waiters ∧
    (w.finish i child r).executorNames = w.executorNames ∧
    (w.finish i child r).futureNames = w.futureNames := by
  have hd : (w.deliver child r).children[i]? = some child := by simp [deliver_frame, hc]
  simp [finish, endChild_frame hd, deliver_frame]

theorem finish_cells {w : World V} {i : Nat} {child : Child V} (r : RunEnd V)
    (hc : w.children[i]? = some child) :
    (w.finish i child r).cells =
      w.cells.modify child.cell (·.conclude (resultFor child.work r)) := by
  have hd : (w.deliver child r).children[i]? = some child := by simp [deliver_frame, hc]
  simp [finish, endChild_cells hd, deliver_cells, List.modify_modify_eq, Function.comp_def,
    Cell.conclude]

/-- The ending that is counted is the one that the child's cell settled with. -/
theorem finish_executors {w : World V} {i : Nat} {child : Child V} (r : RunEnd V)
    (hc : w.children[i]? = some child) :
    (w.finish i child r).executors =
      w.executors.modify child.executor
        (·.discharge i ((w.finish i child r).endingOf child.cell)) := by
  have hd : (w.deliver child r).children[i]? = some child := by simp [deliver_frame, hc]
  have he := endChild_executors hd
  rw [(deliver_frame w child r).2.1] at he
  exact he

theorem finish_batches {w : World V} {i : Nat} {child : Child V} (r : RunEnd V)
    (hc : w.children[i]? = some child) :
    (w.finish i child r).batches =
      match child.work.batch? with
      | none => w.batches
      | some b => w.batches.modify b (child.work.tell r) := by
  have hd : (w.deliver child r).children[i]? = some child := by simp [deliver_frame, hc]
  rw [← deliver_batches]
  simp [finish, endChild_frame hd]

/-- A body that broke off leaves its cell to be cancelled. -/
theorem finish_history {w : World V} {i : Nat} {child : Child V} (r : RunEnd V)
    (hc : w.children[i]? = some child) :
    (w.finish i child r).history =
      w.history ++ (w.now, .ended child.cell r) ::
        if (w.deliver child r).cancellable child.cell true then [(w.now, .cancelled child.cell)]
        else [] := by
  have hd : (w.deliver child r).children[i]? = some child := by simp [deliver_frame, hc]
  have hn : (w.deliver child r).now = w.now := by simp [now, deliver_frame]
  simp [finish, endChild_frame hd, cancel_history, deliver_frame, hn]

/-! ## Lifecycle -/

theorem isRunning_iff {w : World V} {e : Nat} :
    w.isRunning e = true ↔ ∃ x, w.executors[e]? = some x ∧ x.state = .running := by
  unfold isRunning stateOf?
  cases w.executors[e]? <;> simp

theorem beginShutdown_of_running {w : World V} {e : Nat} (hr : w.isRunning e = true) :
    w.beginShutdown e =
      (((w.record (.asked e)).modifyExecutor e fun x => { x with state := .draining }).record
        (.draining e), true) :=
  if_pos hr

theorem beginShutdown_of_not_running {w : World V} {e : Nat} (hr : w.isRunning e = false) :
    w.beginShutdown e = (w.record (.asked e), false) :=
  if_neg (by rw [show (w.record (.asked e)).isRunning e = false from hr]; simp)

/-- With its last child gone an executor terminates at once; else a watcher waits for that. -/
theorem beginDrain_eq {w : World V} {e : Nat} {x : Executor} (hx : w.executors[e]? = some x) :
    w.beginDrain e =
      if x.tracked = 0 then (w.modifyExecutor e fun x => { x with closed := true }).markTerminated e
      else (w.modifyExecutor e fun x => { x with closed := true }).enqueue (.watcher e) := by
  have hd : (w.modifyExecutor e fun x => { x with closed := true }).isDrained e =
      (x.tracked == 0) := by
    simp [isDrained, modifyExecutor, hx]
  simp [beginDrain, hd]

/-! ## Children that come in -/

theorem addBatchChildren_frame (w : World V) (e : Nat) (name : String) (work : Body V → Work V)
    (n : Nat) (bodies : List (Body V)) :
    (w.addBatchChildren e name work n bodies).1.clock = w.clock ∧
    (w.addBatchChildren e name work n bodies).1.waiters = w.waiters ∧
    (w.addBatchChildren e name work n bodies).1.batches = w.batches ∧
    (w.addBatchChildren e name work n bodies).1.waiting = w.waiting ∧
    (w.addBatchChildren e name work n bodies).1.executorNames = w.executorNames ∧
    (w.addBatchChildren e name work n bodies).1.history = w.history := by
  induction bodies generalizing w n with
  | nil => exact ⟨rfl, rfl, rfl, rfl, rfl, rfl⟩
  | cons body bodies ih => exact ih _ _

/-- What is kept when one child comes in is kept when a batch does. -/
theorem addBatchChildren_induct {P : World V → Prop} {w : World V} (base : P w) (e : Nat)
    (name : String) (work : Body V → Work V) (n : Nat) (bodies : List (Body V))
    (step : ∀ w name body, P w → P (w.addChild e name (work body) none).1) :
    P (w.addBatchChildren e name work n bodies).1 := by
  induction bodies generalizing w n with
  | nil => exact base
  | cons body bodies ih => exact ih (step _ _ _ base) _

theorem addCancelledCells_cells (w : World V) (count : Nat) :
    (w.addCancelledCells count).1 =
      { w with cells := w.cells ++ List.replicate count { outcome := some .cancelled } } := by
  induction count generalizing w with
  | zero => simp [addCancelledCells]
  | succ n ih =>
    show (addCancelledCells _ n).1 = _
    rw [ih]
    simp [List.replicate_succ]

/-! ## Runs -/

theorem parkChild_eq {w : World V} {i : Nat} {child : Child V} (s : Stage V)
    (hc : w.children[i]? = some child) :
    w.parkChild i s =
      if w.isSignalled child.cell then (w.setStage i s).enqueue (.child i)
      else (w.setStage i s).suspend (.child i) := by
  have hs : (w.setStage i s).children[i]? = some { child with stage := s } := by
    simp [setStage, modifyChild, hc]
  simp only [parkChild, hs]
  rfl

theorem parkChild_frame {w : World V} {i : Nat} {child : Child V} (s : Stage V)
    (hc : w.children[i]? = some child) :
    (w.parkChild i s).clock = w.clock ∧ (w.parkChild i s).executors = w.executors ∧
    (w.parkChild i s).cells = w.cells ∧
    (w.parkChild i s).children = w.children.modify i (fun x => { x with stage := s }) ∧
    (w.parkChild i s).waiters = w.waiters ∧ (w.parkChild i s).batches = w.batches ∧
    (w.parkChild i s).executorNames = w.executorNames ∧
    (w.parkChild i s).history = w.history ∧
    (w.parkChild i s).futureNames = w.futureNames := by
  rw [parkChild_eq s hc]
  split <;> exact ⟨rfl, rfl, rfl, rfl, rfl, rfl, rfl, rfl, rfl⟩

theorem closeRun_ended (w : World V) (c : Nat) (r : RunEnd V) :
    (w.closeRun c (.ended r)).1 = w.modifyCell c (·.leave r) := by
  cases r with
  | panicked => simp [closeRun, modifyCell, modify_eq_self_of, Cell.leave]
  | _ => rfl

end World

end TimedTasks

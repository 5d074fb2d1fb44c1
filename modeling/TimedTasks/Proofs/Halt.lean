import TimedTasks.Proofs.Callers
import TimedTasks.Proofs.Cancellation
import TimedTasks.Proofs.Termination
/-!
A halt of an executor. Whoever asks for it, and whether or not a shutdown was asked for before, the
call settles the future of every task that the executor was given: those that were settled keep
their outcome, the others are cancelled. From then on no body of these tasks is called or polled;
the one that made the call goes on to the end of its poll. And when no task is ready the executor
has terminated, and its figures account for every task.
-/

namespace TimedTasks

open World

variable {V : Type} {f f' : Focus} {w w' : World V} {e : Nat} {b : Option Nat}

namespace World

/-! ## The call -/

theorem halting_frame (w : World V) (e : Nat) :
    (w.halting e).children = w.children ∧ (w.halting e).cells = w.cells ∧
    (w.halting e).isRunning e = false := by
  unfold halting
  cases hrun : w.isRunning e with
  | true =>
    have hrun' : (w.report (.shutdownNowCalled (w.nameOf e))).isRunning e = true := hrun
    rw [beginShutdown_of_running hrun']
    refine ⟨rfl, rfl, Bool.eq_false_iff.mpr fun h => ?_⟩
    obtain ⟨x, hx, hs⟩ := isRunning_iff.mp h
    obtain ⟨y, -, ⟨-, rfl⟩ | ⟨hne, -⟩⟩ := exists_getElem?_of_modify hx
    · cases hs
    · exact hne rfl
  | false =>
    have hrun' : (w.report (.shutdownNowCalled (w.nameOf e))).isRunning e = false := hrun
    rw [beginShutdown_of_not_running hrun']
    exact ⟨rfl, rfl, hrun⟩

theorem beginDrain_children (w : World V) (e : Nat) : (w.beginDrain e).children = w.children := by
  unfold beginDrain
  dsimp only
  split <;> rfl

theorem shutdownNow_children (he : e < w.executors.length) (hr : Reached (.caller b) w) :
    (w.shutdownNow e).children = w.children := by
  have hhalted : (w.cleared e).children = w.children :=
    (cancelAll_children _ _).trans (w.halting_frame e).1
  rw [shutdownNow_eq he hr]
  split
  · exact (beginDrain_children _ _).trans hhalted
  · exact hhalted

/-- A halt leaves the executor in another state than running. -/
theorem shutdownNow_isRunning (he : e < w.executors.length) (hr : Reached (.caller b) w) :
    (w.shutdownNow e).isRunning e = false := by
  have hhalting := halting_leads he hr
  have hafter := cleared_leads.trans (afterHalt_leads he hr) (hhalting.reached hr)
  have he' := Nat.lt_of_lt_of_le he hhalting.ops.later.executors.length_le
  exact hafter.ops.later.isRunning_eq_false he' (w.halting_frame e).2.2

/-- A halt cancels the tasks whose futures are unsettled, and leaves the other futures as they
are. -/
theorem shutdownNow_outcomeOf (he : e < w.executors.length) (hr : Reached (.caller b) w)
    {child : Child V} (hc : child ∈ w.children) (hce : child.executor = e) :
    (w.shutdownNow e).outcomeOf child.cell =
      some ((w.outcomeOf child.cell).getD .cancelled) := by
  cases ho : w.outcomeOf child.cell with
  | some o => exact (shutdownNow_leads he hr).ops.later.outcomeOf ho
  | none =>
    obtain ⟨i, hi⟩ := List.mem_iff_getElem?.mp hc
    obtain ⟨hchildren, hcells, -⟩ := w.halting_frame e
    have hr' := (halting_leads he).reached hr
    have hi' : (w.halting e).children[i]? = some child := by rw [hchildren, hi]
    have hs : (w.halting e).isSettled child.cell = false := by
      rw [isSettled_eq_false_iff, outcomeOf, hcells]
      exact ho
    have hn : child.hasEnded = false := by
      refine Bool.eq_false_iff.mpr fun hended => ?_
      have hs := hr.endedSettled child hc hended
      rw [isSettled, ho] at hs
      cases hs
    -- A child that has not ended is registered, whatever it waits for.
    have hcancelled : (w.cleared e).outcomeOf child.cell = some .cancelled :=
      (cancelled_or_kept (hr'.owned.cell_lt hi') (cancelAll_cells ..)).1
        (registered_of_child hr' hi' hce hn) hs
    have hafter := afterHalt_leads he hr (cleared_leads.reached hr')
    exact hafter.ops.later.outcomeOf hcancelled

theorem perform_shutdownNow {name : String} (he : w.executor name = .ok e)
    (hr : Reached (.caller b) w) :
    w.perform (.shutdownNow name) =
      (w.shutdownNow e, .halted 0 true ((w.shutdownNow e).isTerminated e)) := by
  have hrun := shutdownNow_isRunning (executor_lt hr he) hr
  rw [perform, onExecutor, he]
  simp [isShutdown, hrun]

/-! ## Afterwards -/

/-- Whether an executor is not running and the futures of all its tasks are settled. -/
structure Halted (w : World V) (e : Nat) : Prop where
  known : e < w.executors.length
  stopped : w.isRunning e = false
  settled : ∀ child ∈ w.children, child.executor = e → w.isSettled child.cell = true

theorem shutdownNow_halted (he : e < w.executors.length) (hr : Reached (.caller b) w) :
    (w.shutdownNow e).Halted e where
  known := Nat.lt_of_lt_of_le he (shutdownNow_leads he hr).ops.later.executors.length_le
  stopped := shutdownNow_isRunning he hr
  settled child hc hce := by
    rw [shutdownNow_children he hr] at hc
    rw [isSettled, shutdownNow_outcomeOf he hr hc hce]
    rfl

end World

/-- An executor that was halted stays so. -/
theorem Ops.halted (ops : Ops f w f' w') (hr : Reached f w) (h : w.Halted e) : w'.Halted e where
  known := Nat.lt_of_lt_of_le h.known ops.later.executors.length_le
  stopped := ops.later.isRunning_eq_false h.known h.stopped
  settled child' hc' hce := by
    obtain ⟨i, hi⟩ := List.mem_iff_getElem?.mp hc'
    obtain ⟨child, hc, hce, hcell⟩ := ops.was_there hr h.known h.stopped hi hce
    rw [hcell]
    exact ops.later.isSettled (h.settled child (List.mem_of_getElem? hc) hce)

/-- No body of a task of an executor that was halted is called or polled, and none comes to act. -/
theorem Moves.no_runs_of_halted (ms : Moves f w f' w') (hr : Reached f w) (h : w.Halted e) :
    (∃ l, w'.history = w.history ++ l ∧
      ∀ child ∈ w'.children, child.executor = e → ∀ p ∈ l, p.2.isRun child.cell = false) ∧
    ∀ (i : Nat) (child : Child V), w'.children[i]? = some child → child.executor = e →
      f.body? ≠ some i → f'.body? ≠ some i := by
  have each : ∀ (i : Nat) (child' : Child V), w'.children[i]? = some child' →
      child'.executor = e →
      (∃ l, w'.history = w.history ++ l ∧ ∀ p ∈ l, p.2.isRun child'.cell = false) ∧
        (f.body? ≠ some i → f'.body? ≠ some i) := by
    intro i child' hi hce
    obtain ⟨child, hc, hce, hcell⟩ := ms.ops.was_there hr h.known h.stopped hi hce
    rw [hcell]
    exact ms.no_runs hr hc (h.settled child (List.mem_of_getElem? hc) hce)
  obtain ⟨l, hl⟩ := ms.ops.later.history
  refine ⟨⟨l, hl.symm, fun child hc hce => ?_⟩, fun i child hi hce => (each i child hi hce).2⟩
  obtain ⟨i, hi⟩ := List.mem_iff_getElem?.mp hc
  obtain ⟨⟨l', hl', hruns⟩, -⟩ := each i child hi hce
  obtain rfl := List.append_cancel_left (hl.trans hl')
  exact hruns

/-- When no task is ready, an executor that was halted has terminated, all its tasks have ended, and
its figures are those of their futures. -/
theorem Reached.over_of_halted (hr : Reached (.caller none) w) (hq : w.ready = [])
    (h : w.Halted e) :
    w.stateOf? e = some .terminated ∧
    (∀ child ∈ w.children, child.executor = e → child.hasEnded = true) ∧
    (w.statsOf e).active = 0 ∧ (∀ k, (w.statsOf e).ended k = w.settledAs e k) ∧
    w.admitted e =
      (w.statsOf e).completed + (w.statsOf e).failed + (w.statsOf e).cancelled := by
  obtain ⟨x, hx⟩ : ∃ x, w.executors[e]? = some x := ⟨_, List.getElem?_eq_getElem h.known⟩
  have hended : ∀ child ∈ w.children, child.executor = e → child.hasEnded = true := by
    intro child hc hce
    obtain ⟨i, hi⟩ := List.mem_iff_getElem?.mp hc
    rw [hr.hasEnded_eq hq hi]
    exact h.settled child hc hce
  have hu : w.unended e = 0 := by
    refine List.countP_eq_zero.mpr fun child hc => ?_
    by_cases hce : child.executor = e
    · simp [hended child hc hce]
    · simp [hce]
  have hs : x.state ≠ .running := by
    intro hs
    have hrun := isRunning_iff.mpr ⟨x, hx, hs⟩
    rw [h.stopped] at hrun
    cases hrun
  have hfigures : ∀ k, (w.statsOf e).ended k = w.endedAs e k := by
    intro k
    rw [statsOf_eq hx, ← (hr.audited e _ hx).ended]
    cases k <;> rfl
  refine ⟨?_, hended, (hr.active_eq hx).trans hu,
    fun k => (hfigures k).trans ((hr.quiet_eq hq e).1 k), ?_⟩
  · rw [stateOf?, hx, Option.map_some, hr.terminated_of_quiet hq hx hs hu]
  · rw [admitted_eq hr.endedSettled e, hu, ← hfigures, ← hfigures, ← hfigures]
    rfl

/-- A halt of an executor, by a caller outside or the body of a task, settles the future of every
task the executor was given: it keeps its outcome if it was settled, and is cancelled otherwise. The
executor is not running when the call returns, and the call returns no tasks. From then on no body
of a task of the executor is called or polled, and none acts but the one that made the call, which
never acts again once it has come to the end of its poll. When no task is ready the executor has
terminated, nothing is active, and each task is counted once, under the ending of its future. -/
theorem Reached.halts (hr : Reached (.caller b) w) (he : e < w.executors.length) :
    (∀ child ∈ w.children, child.executor = e →
      (w.shutdownNow e).outcomeOf child.cell =
        some ((w.outcomeOf child.cell).getD .cancelled)) ∧
    (w.shutdownNow e).isRunning e = false ∧
    (∀ name, w.executor name = .ok e → w.perform (.shutdownNow name) =
      (w.shutdownNow e, .halted 0 true ((w.shutdownNow e).isTerminated e))) ∧
    ∀ (f₁ : Focus) (w₁ : World V), Moves (.caller b) (w.shutdownNow e) f₁ w₁ →
      (∃ l, w₁.history = (w.shutdownNow e).history ++ l ∧
        ∀ child ∈ w₁.children, child.executor = e → ∀ p ∈ l, p.2.isRun child.cell = false) ∧
      (∀ (i : Nat) (child : Child V), w₁.children[i]? = some child → child.executor = e →
        (b ≠ some i → f₁.body? ≠ some i) ∧
        (f₁.body? ≠ some i → ∀ (f₂ : Focus) (w₂ : World V), Moves f₁ w₁ f₂ w₂ →
          f₂.body? ≠ some i)) ∧
      (f₁ = .caller none → w₁.ready = [] →
        w₁.stateOf? e = some .terminated ∧
        (∀ child ∈ w₁.children, child.executor = e → child.hasEnded = true) ∧
        (w₁.statsOf e).active = 0 ∧ (∀ k, (w₁.statsOf e).ended k = w₁.settledAs e k) ∧
        w₁.admitted e =
          (w₁.statsOf e).completed + (w₁.statsOf e).failed + (w₁.statsOf e).cancelled) := by
  refine ⟨fun child hc hce => shutdownNow_outcomeOf he hr hc hce, shutdownNow_isRunning he hr,
    fun name hname => perform_shutdownNow hname hr, fun f₁ w₁ ms => ?_⟩
  have hr' := (shutdownNow_leads he).reached hr
  have hhalted := shutdownNow_halted he hr
  have hr₁ := hr'.ops ms.ops
  have hhalted₁ := ms.ops.halted hr' hhalted
  obtain ⟨hruns, hacts⟩ := ms.no_runs_of_halted hr' hhalted
  refine ⟨hruns, fun i child hi hce => ⟨hacts i child hi hce, fun hf f₂ w₂ ms₂ => ?_⟩, ?_⟩
  · obtain ⟨child₂, hi₂, hk⟩ := ms₂.ops.later.children i child hi
    exact (ms₂.no_runs_of_halted hr₁ hhalted₁).2 i child₂ hi₂ (hk.executor.trans hce) hf
  · rintro rfl hq
    exact hr₁.over_of_halted hq hhalted₁

/-- Of the tasks of an executor one has ended, one goes on for ever, one is delayed, one is between
two runs, and one has not begun. -/
def mixedPool : World Nat :=
  (World.start true).after
    [.call (.create "pool" none none none none),
      .call (.submit "pool" "done" none (.steps [.ok (some 7)])),
      .call (.submit "pool" "long" none (.steps [.pending])),
      .call (.schedule "pool" "later" ⟨12, by decide⟩ (.steps [.ok (some 8)])),
      .call (.repeating "pool" "again" (.fixedRate ⟨14, by decide⟩) .zero [.steps []]),
      .settle, .call (.submit "pool" "new" none (.steps [.ok (some 9)]))]

theorem halts_mixedPool :
    (∀ child ∈ mixedPool.children, child.executor = 0 →
      (mixedPool.shutdownNow 0).outcomeOf child.cell =
        some ((mixedPool.outcomeOf child.cell).getD .cancelled)) ∧
    (mixedPool.children.map fun child => (mixedPool.outcomeOf child.cell).getD .cancelled) =
      [.completed (some 7), .cancelled, .cancelled, .cancelled, .cancelled] ∧
    (mixedPool.shutdownNow 0).quiesce.stateOf? 0 = some .terminated ∧
    ((mixedPool.shutdownNow 0).quiesce.statsOf 0).active = 0 := by
  have hwalked : Walked (.caller none) mixedPool := (Walked.start true).after _
  have he : 0 < mixedPool.executors.length := by decide
  obtain ⟨houtcomes, -, -, hafter⟩ := Reached.halts hwalked.reached he
  have hhalted := hwalked.moves ((shutdownNow_leads he hwalked.reached).moves hwalked)
  obtain ⟨-, -, hquiet⟩ := hafter _ _ ((quiesce_leads hhalted.reached).moves hhalted)
  obtain ⟨hstate, -, hactive, -⟩ := hquiet rfl rfl
  exact ⟨houtcomes, rfl, hstate, hactive⟩

end TimedTasks

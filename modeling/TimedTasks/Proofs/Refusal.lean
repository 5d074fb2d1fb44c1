import TimedTasks.Proofs.AllSettled
/-!
Calls that hand tasks in and are refused. An executor that was shut down counts one rejection for a
call, however many tasks the call brings; a call that cannot be meant is told so before the executor
is looked at, and is not counted. Either way nothing of the call stays behind.
-/

namespace TimedTasks

open World

variable {V : Type} {w : World V} {e j : Nat} {x : Executor} {y : Waiter V} {err : TaskError}

/-- Whether an error is about the arguments of a call. -/
def TaskError.IsInvalidArgument (err : TaskError) : Prop :=
  ∃ message, err = .invalidArgument message

/-- What is wrong with a time that lies `d` after `now`. -/
def delayComplaint? (now : Instant) (d : Duration) : Option TaskError :=
  if Instant.after? now d = none then some (delayTooLarge d) else none

theorem delayComplaint?_eq_some {now : Instant} {d : Duration} :
    delayComplaint? now d = some err ↔ Instant.after? now d = none ∧ err = delayTooLarge d := by
  simp [delayComplaint?, eq_comm]

theorem delayComplaint?_eq_none {now : Instant} {d : Duration} :
    delayComplaint? now d = none ↔ ∃ due, Instant.after? now d = some due := by
  simp [delayComplaint?, Option.ne_none_iff_exists']

namespace Call

/-- The executor to which a call hands in a single task, by name. -/
def handsInTo? : Call V → Option String
  | .execute executor .. | .submit executor .. | .schedule executor .. | .repeating executor .. =>
    some executor
  | _ => none

/-- What is wrong with the times that a call made at `now` gives its task. -/
def complaint? (now : Instant) : Call V → Option TaskError
  | .schedule _ _ d _ => delayComplaint? now d
  | .repeating _ _ pace d _ =>
    if pace.interval.isZero then some (paceIsZero pace) else delayComplaint? now d
  | _ => none

theorem isInvalidArgument_of_complaint {c : Call V} {now : Instant}
    (h : c.complaint? now = some err) : err.IsInvalidArgument := by
  have hdelay : ∀ {d}, delayComplaint? now d = some err → err.IsInvalidArgument :=
    fun h => ⟨_, (delayComplaint?_eq_some.mp h).2⟩
  cases c with
  | schedule executor future d body => exact hdelay h
  | repeating executor future pace d runs =>
    simp only [complaint?] at h
    split at h
    · cases h
      cases pace <;> exact ⟨_, rfl⟩
    · exact hdelay h
  | _ => cases h

end Call

namespace Request

/-- The executor to which a request hands in a batch, with the bodies and the bound. -/
def batch? : Request V → Option (Nat × List (Body V) × Option Duration)
  | .invokeAll e bodies bound | .invokeAny e bodies bound => some (e, bodies, bound)
  | _ => none

/-- What is wrong with a batch: there is no first value of none. -/
def complaint? : Request V → Option TaskError
  | .invokeAny _ [] _ => some (.invalidArgument "invoke_any needs at least one task")
  | _ => none

/-- The answer to a request whose bound leaves no time. -/
def outOfTime : Request V → Answer V
  | .invokeAll _ bodies _ => .reads (bodies.map fun _ => some (.error .cancelled))
  | _ => .error (.timeout .zero)

end Request

namespace World

/-- The state with one more rejection on an executor's account. -/
def countRejection (w : World V) (e : Nat) : World V :=
  w.modifyExecutor e fun x =>
    { x with counters := { x.counters with rejected := x.counters.rejected + 1 } }

/-- The second state differs from the first in nothing but what was reported. -/
def SameButReports (w w' : World V) : Prop := w' = { w with notices := w'.notices }

theorem reject_eq (hx : w.executors[e]? = some x) :
    SameButReports (w.countRejection e) (w.reject e).1 ∧
      (w.reject e).2 = .rejected x.settings.name := by
  simp [SameButReports, reject, countRejection, report, nameOf, hx]

theorem isRunning_eq_false (hx : w.executors[e]? = some x) (hs : x.state ≠ .running) :
    w.isRunning e = false := by
  simp [isRunning, stateOf?, hx, hs]

/-! ## Single tasks -/

/-- Handing in a task has come to an error, and to a state but for reports. -/
def Refuses (w : World V) (err : TaskError) (r : World V × Except TaskError Nat) : Prop :=
  SameButReports w r.1 ∧ r.2 = .error err

theorem enrol_rejected (hx : w.executors[e]? = some x) (hs : x.state ≠ .running) (name : String)
    (work : Work V) (mark : Option Mark) :
    Refuses (w.countRejection e) (.rejected x.settings.name) (w.enrol e name work mark) := by
  obtain ⟨hsame, herr⟩ := reject_eq hx
  rw [enrol, if_neg (by simp [isRunning_eq_false hx hs])]
  exact ⟨hsame, congrArg Except.error herr⟩

section Arguments

variable {name : String} {pace : Pace} {d : Duration} {body : Body V} {runs : List (Body V)}

theorem schedule_refused (h : delayComplaint? w.now d = some err) :
    Refuses w err (w.schedule e name d body) := by
  obtain ⟨hdue, rfl⟩ := delayComplaint?_eq_some.mp h
  rw [schedule, hdue]
  exact ⟨rfl, rfl⟩

theorem schedule_rejected (hx : w.executors[e]? = some x) (hs : x.state ≠ .running)
    (h : delayComplaint? w.now d = none) :
    Refuses (w.countRejection e) (.rejected x.settings.name) (w.schedule e name d body) := by
  obtain ⟨due, hdue⟩ := delayComplaint?_eq_none.mp h
  rw [schedule, hdue]
  exact enrol_rejected hx hs ..

theorem scheduleRepeating_refused
    (h : (Call.repeating (V := V) name name pace d runs).complaint? w.now = some err) :
    Refuses w err (w.scheduleRepeating e name pace d runs) := by
  simp only [Call.complaint?] at h
  unfold scheduleRepeating
  split at h
  · rename_i hz
    cases h
    simp only [if_pos hz]
    exact ⟨rfl, rfl⟩
  · rename_i hz
    obtain ⟨hdue, rfl⟩ := delayComplaint?_eq_some.mp h
    have hdue' (n : Notice) : Instant.after? (w.report n).now d = none := hdue
    simp only [if_neg hz, hdue']
    exact ⟨rfl, rfl⟩

/-- The report with which a call for a periodic task begins is of no consequence. -/
theorem scheduleRepeating_rejected (hx : w.executors[e]? = some x) (hs : x.state ≠ .running)
    (h : (Call.repeating (V := V) name name pace d runs).complaint? w.now = none) :
    Refuses (w.countRejection e) (.rejected x.settings.name)
      (w.scheduleRepeating e name pace d runs) := by
  simp only [Call.complaint?] at h
  split at h
  · cases h
  · rename_i hz
    obtain ⟨due, hdue⟩ := delayComplaint?_eq_none.mp h
    have hdue' (n : Notice) : Instant.after? (w.report n).now d = some due := hdue
    unfold scheduleRepeating
    simp only [if_neg hz, hdue']
    obtain ⟨hsame, herr⟩ := enrol_rejected (w := w.report (.repeatingCalled (w.nameOf e) d pace))
      hx hs name (.periodic pace runs) (some (.ofInstant (w.originOf e) due))
    exact ⟨hsame, herr⟩

end Arguments

/-- The answer to a call for a task that was not admitted; no future gets a name. -/
theorem Refuses.accepted {r : World V × Except TaskError Nat} (h : Refuses w err r)
    (name : String) (kind : HandleKind) :
    SameButReports w (accepted name kind r).1 ∧ (accepted name kind r).2 = .error err := by
  obtain ⟨w', a⟩ := r
  obtain ⟨hsame, rfl⟩ := h
  exact ⟨hsame, rfl⟩

/-- A call for a single task with impossible times leaves nothing behind. -/
theorem perform_refused {c : Call V} {name : String} (hc : c.handsInTo? = some name)
    (hname : w.executor name = .ok e) (h : c.complaint? w.now = some err) :
    SameButReports w (w.perform c).1 ∧ (w.perform c).2 = .error err := by
  cases c with
  | schedule executor future d body =>
    cases hc
    simp only [perform, onExecutor, hname]
    exact (schedule_refused h).accepted ..
  | repeating executor future pace d runs =>
    cases hc
    simp only [perform, onExecutor, hname]
    exact (scheduleRepeating_refused h).accepted ..
  | _ => cases h

/-- A call for a single task on an executor that was shut down leaves a counted rejection behind,
and nothing else. -/
theorem perform_rejected {c : Call V} {name : String} (hc : c.handsInTo? = some name)
    (hname : w.executor name = .ok e) (hx : w.executors[e]? = some x) (hs : x.state ≠ .running)
    (h : c.complaint? w.now = none) :
    SameButReports (w.countRejection e) (w.perform c).1 ∧
      (w.perform c).2 = .error (.rejected x.settings.name) := by
  cases c with
  | execute executor task body =>
    cases hc
    simp only [perform, onExecutor, hname, submit]
    have hrejected := enrol_rejected hx hs task (.once .unwanted body) none
    revert hrejected
    -- What is answered depends on the result alone.
    generalize w.enrol e task (.once .unwanted body) none = r
    rintro ⟨hsame, herr⟩
    obtain ⟨w', a⟩ := r
    obtain rfl : a = _ := herr
    exact ⟨hsame, rfl⟩
  | submit executor future instead body =>
    cases hc
    simp only [perform, onExecutor, hname, submit]
    exact (enrol_rejected hx hs ..).accepted ..
  | schedule executor future d body =>
    cases hc
    simp only [perform, onExecutor, hname]
    exact (schedule_rejected hx hs h).accepted ..
  | repeating executor future pace d runs =>
    cases hc
    simp only [perform, onExecutor, hname]
    exact (scheduleRepeating_rejected hx hs h).accepted ..
  | _ => cases hc

/-! ## Batches -/

section Batches

variable {bodies : List (Body V)} {bound : Option Duration}

theorem SameButReports.finishWaiter {w' : World V} (h : SameButReports w w') (j : Nat)
    (name : String) (a : Answer V) :
    SameButReports (w.finishWaiter j name a) (w'.finishWaiter j name a) := by
  rw [SameButReports] at h
  rw [h]
  rfl

/-- A batch is rejected as a whole, and the rejection and the end of its caller are all that the
state shows of it. -/
theorem waiterTurn_rejected (hy : w.waiters[j]? = some y) (hst : y.stage = .created)
    (hq : y.request.batch? = some (e, bodies, bound)) (hx : w.executors[e]? = some x)
    (hs : x.state ≠ .running) (h : y.request.complaint? = none) :
    SameButReports
      ((w.countRejection e).finishWaiter j y.name (.error (.rejected x.settings.name)))
      (w.waiterTurn j) := by
  have hrun (n : Notice) : (w.report n).isRunning e = false := isRunning_eq_false hx hs
  have hend (n : Notice) : SameButReports
      ((w.countRejection e).finishWaiter j y.name (.error (.rejected x.settings.name)))
      (((w.report n).reject e).1.finishWaiter j y.name (.error ((w.report n).reject e).2)) := by
    obtain ⟨hsame, herr⟩ := reject_eq (w := w.report n) hx
    rw [herr]
    exact hsame.finishWaiter j y.name _
  obtain ⟨name, request, stage⟩ := y
  obtain rfl : stage = .created := hst
  cases request with
  | invokeAll e' bodies' bound' =>
    cases hq
    simp only [waiterTurn, hy, beginWaiter, beginAll, hrun]
    exact hend _
  | invokeAny e' bodies' bound' =>
    cases hq
    cases bodies with
    | nil => cases h
    | cons body bodies =>
      simp only [waiterTurn, hy, beginWaiter, beginAny, hrun]
      exact hend _
  | _ => cases hq

/-- A batch of nothing that is asked for a value leaves nothing behind, whatever the state of the
executor. -/
theorem waiterTurn_refused (hy : w.waiters[j]? = some y) (hst : y.stage = .created)
    (h : y.request.complaint? = some err) :
    err.IsInvalidArgument ∧
      SameButReports (w.finishWaiter j y.name (.error err)) (w.waiterTurn j) := by
  obtain ⟨name, request, stage⟩ := y
  obtain rfl : stage = .created := hst
  cases request with
  | invokeAny e' bodies' bound' =>
    cases bodies' with
    | nil =>
      cases h
      simp only [waiterTurn, hy, beginWaiter, beginAny]
      exact ⟨⟨_, rfl⟩, rfl⟩
    | cons body bodies => cases h
  | _ => cases h

theorem addCancelledCells_snd (w : World V) (count : Nat) :
    (w.addCancelledCells count).2 = List.range' w.cells.length count := by
  induction count generalizing w with
  | zero => rfl
  | succ n ih =>
    show _ :: (addCancelledCells _ n).2 = _
    rw [ih, List.range'_succ, List.length_append]
    rfl

/-- The cells of a batch that is cancelled from the start are read as cancelled. -/
theorem read?_cancelledCells (w : World V) (count : Nat) :
    (w.addCancelledCells count).2.map (w.addCancelledCells count).1.read? =
      List.replicate count (some (.error .cancelled)) := by
  rw [addCancelledCells_snd, addCancelledCells_cells, List.eq_replicate_iff]
  refine ⟨by simp, fun a ha => ?_⟩
  obtain ⟨c, hc, rfl⟩ := List.mem_map.mp ha
  obtain ⟨k, hk, rfl⟩ := List.mem_range'.mp hc
  simp [read?, outcomeOf, hk, Outcome.read]

theorem nameBatch_eq (w : World V) (name : String) (n : Nat) (cells : List Nat) :
    w.nameBatch name n cells =
      { w with futureNames := (w.nameBatch name n cells).futureNames } := by
  induction cells generalizing w n with
  | nil => rfl
  | cons c cells ih => exact ih _ _

/-- The answer for a batch changes names besides. -/
theorem answerAll_eq (w : World V) (j : Nat) (name : String) (cells : List Nat) :
    w.answerAll j name cells =
      { w.finishWaiter j name (.reads (cells.map w.read?)) with
        futureNames := (w.nameBatch name 0 cells).futureNames } := by
  rw [answerAll, nameBatch_eq]
  rfl

theorem beginAll_outOfTime (hrun : w.isRunning e = true) (hz : isZeroBound bound = true) :
    ∃ names, SameButReports
      { w.finishWaiter j y.name (.reads (bodies.map fun _ => some (.error .cancelled))) with
        cells := w.cells ++ List.replicate bodies.length { outcome := some .cancelled }
        futureNames := names }
      (w.beginAll j y e bodies bound) := by
  let w₁ := (w.report (.invokeAllCalled (w.nameOf e) bodies.length bound)).report .cancelledUpFront
  have hbegin : w.beginAll j y e bodies bound =
      (w₁.addCancelledCells bodies.length).1.answerAll j y.name
        (w₁.addCancelledCells bodies.length).2 := by
    have hrun' (n : Notice) : (w.report n).isRunning e = true := hrun
    unfold beginAll
    dsimp only
    rw [hrun', Bool.not_true, if_neg Bool.false_ne_true, if_pos hz]
  rw [hbegin, answerAll_eq, read?_cancelledCells, addCancelledCells_cells, List.map_const']
  exact ⟨_, rfl⟩

/-- A batch that is given no time is not handed in. Where all its futures are asked for, they are
cancelled ones. -/
theorem waiterTurn_outOfTime (hy : w.waiters[j]? = some y) (hst : y.stage = .created)
    (hq : y.request.batch? = some (e, bodies, bound)) (hx : w.executors[e]? = some x)
    (hs : x.state = .running) (hz : isZeroBound bound = true) (h : y.request.complaint? = none) :
    ∃ (cells : List (Cell V)) (names : Names Handle),
      (∀ cell ∈ cells, cell.outcome = some .cancelled) ∧
      SameButReports
        { w.finishWaiter j y.name y.request.outOfTime with
          cells := w.cells ++ cells, futureNames := names }
        (w.waiterTurn j) := by
  have hrun : w.isRunning e = true := by simp [isRunning, stateOf?, hx, hs]
  have hrun' (n : Notice) : (w.report n).isRunning e = true := hrun
  obtain ⟨name, request, stage⟩ := y
  obtain rfl : stage = .created := hst
  cases request with
  | invokeAll e' bodies' bound' =>
    cases hq
    obtain ⟨names, hsame⟩ : ∃ names, SameButReports _ _ :=
      beginAll_outOfTime (j := j) (y := ⟨name, .invokeAll e bodies bound, .created⟩) hrun hz
    refine ⟨List.replicate bodies.length { outcome := some .cancelled }, names,
      fun cell hcell => ?_, ?_⟩
    · rw [List.eq_of_mem_replicate hcell]
    · rw [waiterTurn, hy]
      exact hsame
  | invokeAny e' bodies' bound' =>
    cases hq
    cases bodies with
    | nil => cases h
    | cons body bodies =>
      refine ⟨[], w.futureNames, fun _ h => absurd h (List.not_mem_nil), ?_⟩
      simp only [waiterTurn, hy, beginWaiter, beginAny, hrun', hz, List.append_nil]
      rfl
  | _ => cases hq

/-- A waiter that has had its answer takes no further part in the run. -/
def Spent (w : World V) (j : Nat) : Prop :=
  ∀ (f f' : Focus) (w' : World V), Ops f w f' w' → w'.waiterTurn j = w'

theorem spent_of_ended (hy : w.waiters[j]? = some { y with stage := .ended }) : w.Spent j := by
  intro f f' w' ops
  obtain ⟨y', hy', hl⟩ := ops.later.waiters j _ hy
  rw [waiterTurn, hy']
  simp only [hl.hasEnded rfl]

/-- Whatever the answer to a batch that is not handed in, its caller is done with it. -/
theorem spent_of_finishWaiter {w' : World V} {a : Answer V} (hy : w.waiters[j]? = some y)
    (h : w'.waiters = (w.finishWaiter j y.name a).waiters) : w'.Spent j :=
  spent_of_ended (h ▸ (finishWaiter_frame hy a).1)

end Batches

end World

/-- What becomes of a call that is refused. If its arguments are impossible it is told so, in every
state of the executor. Otherwise an executor that was shut down counts one rejection for the whole
call. A batch with no time at all is cancelled by a running executor. In each case the state is
otherwise as it was: no task has come in, so no body of the call is ever made for a run, and a
caller that was to wait has its answer and takes no further turn. -/
theorem refused_without_trace (hx : w.executors[e]? = some x) :
    (w.countRejection e).statsOf e =
        { w.statsOf e with rejected := (w.statsOf e).rejected + 1 } ∧
    (∀ (c : Call V) (name : String), c.handsInTo? = some name → w.executor name = .ok e →
      (∀ err, c.complaint? w.now = some err →
        err.IsInvalidArgument ∧ SameButReports w (w.perform c).1 ∧
          (w.perform c).2 = .error err) ∧
      (c.complaint? w.now = none → x.state ≠ .running →
        SameButReports (w.countRejection e) (w.perform c).1 ∧
          (w.perform c).2 = .error (.rejected x.settings.name))) ∧
    ∀ (j : Nat) (y : Waiter V) (bodies : List (Body V)) (bound : Option Duration),
      w.waiters[j]? = some y → y.stage = .created →
      y.request.batch? = some (e, bodies, bound) →
      (∀ err, y.request.complaint? = some err →
        err.IsInvalidArgument ∧ (w.waiterTurn j).Spent j ∧
          SameButReports (w.finishWaiter j y.name (.error err)) (w.waiterTurn j)) ∧
      (y.request.complaint? = none → x.state ≠ .running →
        (w.waiterTurn j).Spent j ∧
          SameButReports
            ((w.countRejection e).finishWaiter j y.name (.error (.rejected x.settings.name)))
            (w.waiterTurn j)) ∧
      (y.request.complaint? = none → x.state = .running → isZeroBound bound = true →
        (w.waiterTurn j).Spent j ∧
          ∃ (cells : List (Cell V)) (names : Names Handle),
            (∀ cell ∈ cells, cell.outcome = some .cancelled) ∧
            SameButReports
              { w.finishWaiter j y.name y.request.outOfTime with
                cells := w.cells ++ cells, futureNames := names }
              (w.waiterTurn j)) := by
  refine ⟨?_, fun c name hc hname => ⟨fun err herr => ?_, fun hok hs => ?_⟩,
    fun j y bodies bound hy hst hq => ⟨fun err herr => ?_, fun hok hs => ?_, fun hok hs hz => ?_⟩⟩
  · simp [countRejection, modifyExecutor, statsOf, hx, Counters.snapshot]
  · exact ⟨c.isInvalidArgument_of_complaint herr, perform_refused hc hname herr⟩
  · exact perform_rejected hc hname hx hs hok
  · obtain ⟨hinvalid, hsame⟩ := waiterTurn_refused hy hst herr
    have hspent := spent_of_finishWaiter (a := .error err) hy (congrArg (·.waiters) hsame)
    exact ⟨hinvalid, hspent, hsame⟩
  · have hsame := waiterTurn_rejected hy hst hq hx hs hok
    have hspent := spent_of_finishWaiter (w := w.countRejection e)
      (a := .error (.rejected x.settings.name)) hy (congrArg (·.waiters) hsame)
    exact ⟨hspent, hsame⟩
  · obtain ⟨cells, names, hcells, hsame⟩ := waiterTurn_outOfTime hy hst hq hx hs hz hok
    have hspent := spent_of_finishWaiter (a := y.request.outOfTime) hy
      (congrArg (·.waiters) hsame)
    exact ⟨hspent, cells, names, hcells, hsame⟩

/-- An executor that was shut down while a task is under way, and a call for two tasks that has not
had its first turn. -/
def closedPool : World Nat :=
  (World.start true).after
    [.call (.create "pool" none none none none),
      .call (.submit "pool" "long" none (.steps [.pending])), .settle,
      .call (.shutdown "pool"),
      .call (.invokeAll "pair" "pool" [.steps [], .broken] (some .zero))]

theorem refused_without_trace_closedPool :
    closedPool.stateOf? 0 = some .draining ∧
      (closedPool.perform (.schedule "pool" "late" ⟨3, by decide⟩ (.steps []))).2 =
        .error (.rejected "cadence") ∧
      (closedPool.waiterTurn 0).Spent 0 ∧
      (closedPool.waiterTurn 0).statsOf 0 =
        { closedPool.statsOf 0 with rejected := (closedPool.statsOf 0).rejected + 1 } := by
  obtain ⟨hcount, hcalls, hbatches⟩ := refused_without_trace (w := closedPool) (e := 0) rfl
  obtain ⟨-, hrejected⟩ :=
    hcalls (.schedule "pool" "late" ⟨3, by decide⟩ (.steps [])) "pool" rfl rfl
  obtain ⟨-, hturn, -⟩ := hbatches 0 _ [.steps [], .broken] (some .zero) rfl rfl rfl
  obtain ⟨hspent, hsame⟩ := hturn rfl (by decide)
  refine ⟨rfl, (hrejected (by decide) (by decide)).2, hspent, ?_⟩
  rw [hsame]
  exact hcount

end TimedTasks

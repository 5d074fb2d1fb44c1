import TimedTasks.Proofs.Callers
/-!
The call that hands in a batch and waits for the first value. It returns at its first turn at which
a body has ended with a value, or all children have ended, or its time is up; what it returns is
read off the state at that turn; and then nothing of the batch goes on.
-/

namespace TimedTasks

open World

variable {V : Type} {f f' : Focus} {w w' : World V} {b j : Nat} {batch : Batch V}

/-- All children of a batch are raced if one is. -/
theorem Reached.racers_eq (hr : Reached f w) {child : Child V} (hc : child ∈ w.children)
    (hw : child.work.raced? = some b) : w.racers b = w.members b := by
  apply List.filterMap_congr
  intro other ho
  by_cases hb : other.work.batch? = some b
  · rw [if_pos hb, if_pos (hr.batched.alike child hc other ho b hw hb)]
  · rw [if_neg hb, if_neg fun h => hb (Work.batch?_of_raced? h)]

namespace World

/-! ## The first turn -/

section FirstTurn

variable {x : Waiter V} {e : Nat} {bodies : List (Body V)} {bound : Option Duration}

/-- The call hands in its batch and waits. -/
theorem waiterTurn_any {deadline : Option Instant} (hx : w.waiters[j]? = some x)
    (hst : x.stage = .created) (hq : x.request = .invokeAny e bodies bound)
    (hrun : w.isRunning e = true) (hne : bodies ≠ []) (hz : isZeroBound bound = false)
    (hd : deadline = bound.bind (Instant.after? w.now)) :
    ∃ n, w.waiterTurn j =
      (((w.report n).openBatch e x.name .oneOfAny bodies).modifyWaiter j fun y =>
        { y with stage := .waiting (.batch w.batches.length) deadline }).suspend (.waiter j) := by
  refine ⟨.invokeAnyCalled (w.nameOf e) bodies.length bound, ?_⟩
  have hrun' : (w.report (.invokeAnyCalled (w.nameOf e) bodies.length bound)).isRunning e = true :=
    hrun
  rw [waiterTurn, hx]
  dsimp only
  rw [hst]
  dsimp only
  rw [beginWaiter, hq]
  dsimp only
  unfold beginAny
  dsimp only
  rw [if_neg (by simpa using hne), hrun', Bool.not_true, if_neg Bool.false_ne_true, hz,
    if_neg Bool.false_ne_true]
  exact startBatch_waits hz hd

end FirstTurn

/-! ## A later turn -/

/-- The value of the task, of some, that ended with one first. -/
def firstValueOf (w : World V) (cells : List Nat) : Option (Option V) :=
  w.history.findSome? fun p => p.2.value? cells

/-- The cause of the task, of some, that failed last. -/
def lastCauseOf (w : World V) (cells : List Nat) : Option Cause :=
  w.history.reverse.findSome? fun p => p.2.cause? cells

/-- Whether a caller that waits for the first value has waited long enough. -/
def RaceOver (w : World V) (cells : List Nat) (deadline : Option Instant) : Prop :=
  (∃ v, w.firstValueOf cells = some v) ∨ w.AllEnded cells ∨ ∃ t, deadline = some t ∧ t ≤ w.now

/-- What the caller of a batch gets for its first value. -/
structure RaceResult (w : World V) (cells : List Nat) (bound : Option Duration)
    (r : Except TaskError (Option V)) : Prop where
  value : ∀ v, r = .ok v ↔ w.firstValueOf cells = some v
  timeout : ∀ d, r = .error (.timeout d) ↔
    w.firstValueOf cells = none ∧ ¬ w.AllEnded cells ∧ bound = some d
  failed : ∀ cause, r = .error (.execution cause) ↔
    w.firstValueOf cells = none ∧ w.AllEnded cells ∧ w.lastCauseOf cells = some cause
  cancelled : r = .error .cancelled ↔
    w.firstValueOf cells = none ∧ w.AllEnded cells ∧ w.lastCauseOf cells = none

/-- What a batch knows of its children, where its caller waits for the first value. -/
structure Raced (w : World V) (batch : Batch V) : Prop where
  winner : batch.winner = w.firstValueOf batch.cells
  remaining : batch.remaining = 0 ↔ w.AllEnded batch.cells
  notified : batch.notified = (batch.winner.isSome || batch.remaining == 0)
  lastFailure : batch.lastFailure = w.lastCauseOf batch.cells

/-- The batch gives its caller what the history tells. -/
theorem Raced.result (h : w.Raced batch) {bound : Option Duration} {deadline : Option Instant}
    (hover : w.RaceOver batch.cells deadline) (hd : bound = none → deadline = none) :
    w.RaceResult batch.cells bound (anyResult batch bound batch.notified) := by
  have hw := h.winner
  have hl := h.lastFailure
  cases hv : batch.winner with
  | some v =>
    rw [hv] at hw
    have hr : anyResult batch bound batch.notified = .ok v := by rw [anyResult, hv]
    rw [hr]
    refine ⟨fun v' => ?_, fun d => ?_, fun cause => ?_, ?_⟩
    all_goals simp [← hw]
  | none =>
    rw [hv] at hw
    cases hn : batch.notified with
    | true =>
      have hended : w.AllEnded batch.cells := by
        rw [← h.remaining]
        simpa [h.notified, hv] using hn
      unfold anyResult
      rw [hv, hl]
      refine ⟨fun v' => ?_, fun d => ?_, fun cause => ?_, ?_⟩
      all_goals cases w.lastCauseOf batch.cells <;> simp [← hw, hended]
    | false =>
      have hgoing : ¬ w.AllEnded batch.cells := by
        rw [← h.remaining]
        simpa [h.notified, hv] using hn
      -- Only the deadline is left as what the caller has waited for.
      obtain ⟨d, rfl⟩ : ∃ d, bound = some d := by
        rcases hover with ⟨v, hv'⟩ | hended | ⟨t, ht, -⟩
        · rw [← hw] at hv'
          cases hv'
        · exact absurd hended hgoing
        · apply Option.ne_none_iff_exists'.mp
          intro hb
          rw [hd hb] at ht
          cases ht
      have hr : anyResult batch (some d) false = .error (.timeout d) := by
        rw [anyResult, hv]
        rfl
      rw [hr]
      refine ⟨fun v' => ?_, fun d' => ?_, fun cause => ?_, ?_⟩
      all_goals simp [← hw, hgoing]

/-- What has come for the caller of a batch is a value, or the end of all tasks. -/
theorem Raced.notified_iff (h : w.Raced batch) :
    batch.notified = true ↔
      (∃ v, w.firstValueOf batch.cells = some v) ∨ w.AllEnded batch.cells := by
  rw [h.notified, Bool.or_eq_true_iff, beq_iff_eq, h.remaining, h.winner,
    Option.isSome_iff_exists]

theorem checkWaiter_over (h : w.Raced batch) (hb : w.batches[b]? = some batch) {x : Waiter V}
    {deadline : Option Instant} (hover : w.RaceOver batch.cells deadline) :
    w.checkWaiter j x (.batch b) deadline = w.conclude j x (.batch b) batch.notified := by
  have hcome : w.hasCome (.batch b) = batch.notified := by
    rw [hasCome, hb]
    rfl
  unfold checkWaiter
  rw [hcome]
  cases hn : batch.notified with
  | true => rfl
  | false =>
    rw [if_neg Bool.false_ne_true]
    obtain ⟨t, rfl, ht⟩ : ∃ t, deadline = some t ∧ t ≤ w.now := by
      apply (or_assoc.mpr hover).resolve_left
      intro hcame
      rw [h.notified_iff.mpr hcame] at hn
      cases hn
    exact if_pos ht

theorem checkWaiter_not_over (h : w.Raced batch) (hb : w.batches[b]? = some batch) {x : Waiter V}
    {deadline : Option Instant} (hover : ¬ w.RaceOver batch.cells deadline) :
    w.checkWaiter j x (.batch b) deadline =
      (w.modifyWaiter j fun y => { y with stage := .waiting (.batch b) deadline }).suspend
        (.waiter j) := by
  have hcome : w.hasCome (.batch b) = false := by
    rw [hasCome, hb]
    refine Bool.eq_false_iff.mpr fun hn => hover ?_
    exact or_assoc.mp (.inl (h.notified_iff.mp hn))
  unfold checkWaiter
  rw [hcome, if_neg Bool.false_ne_true]
  split
  · rename_i t
    exact if_neg fun ht => hover (.inr (.inr ⟨t, rfl, ht⟩))
  · rfl

/-! ## The answer -/

/-- The call ends with its answer, after all that is left of its batch is cancelled. -/
theorem conclude_any {x : Waiter V} {e : Nat} {bodies : List (Body V)} {bound : Option Duration}
    (hb : w.batches[b]? = some batch) (hx : w.waiters[j]? = some x)
    (hq : x.request = .invokeAny e bodies bound) (inTime : Bool) :
    (w.conclude j x (.batch b) inTime).waiters[j]? = some { x with stage := .ended } ∧
      (w.conclude j x (.batch b) inTime).log =
        w.log ++ [⟨w.now, x.name, .answered (.read (anyResult batch bound inTime))⟩] ∧
      (w.conclude j x (.batch b) inTime).cells = (w.cancelAll batch.cells).1.cells := by
  obtain ⟨hlog, hclock, hwaiters⟩ := cancelAll_frame w batch.cells
  have finishes : ∀ w₁ : World V, w₁.waiters = w.waiters → w₁.log = w.log → w₁.clock = w.clock →
      w₁.cells = (w.cancelAll batch.cells).1.cells → ∀ a : Answer V,
      (w₁.finishWaiter j x.name a).waiters[j]? = some { x with stage := .ended } ∧
        (w₁.finishWaiter j x.name a).log = w.log ++ [⟨w.now, x.name, .answered a⟩] ∧
        (w₁.finishWaiter j x.name a).cells = (w.cancelAll batch.cells).1.cells := by
    intro w₁ hw hl hc hcells a
    refine ⟨?_, ?_, hcells⟩
    · show (w₁.waiters.modify j _)[j]? = _
      rw [hw, List.getElem?_modify_eq, hx]
      rfl
    · show w₁.log ++ [⟨w₁.now, _, _⟩] = _
      rw [hl, World.now, World.now, hc]
  have hconclude : w.conclude j x (.batch b) inTime =
      (if batch.winner.isNone && !inTime then
        (w.cancelAll batch.cells).1.report (.invokeAnyTimedOut (bound.getD .zero))
      else (w.cancelAll batch.cells).1).finishWaiter j x.name
        (.read (anyResult batch bound inTime)) := by
    unfold conclude
    rw [hq]
    dsimp only
    rw [hb]
  rw [hconclude]
  split
  · exact finishes (World.report _ _) hwaiters hlog hclock rfl _
  · exact finishes _ hwaiters hlog hclock rfl _

end World

/-- A batch one of whose children is raced knows what became of them. -/
theorem Reached.raced (hr : Reached f w) (hb : w.batches[b]? = some batch) {child : Child V}
    (hc : child ∈ w.children) (hw : child.work.raced? = some b) : w.Raced batch := by
  have ht := hr.batched.tallied b batch hb
  have hcells : w.racers b = batch.cells := (hr.racers_eq hc hw).trans ht.cells.symm
  refine ⟨ht.winner.trans ?_, hr.remaining_eq_zero_iff hb, ht.notified, ht.lastFailure.trans ?_⟩
  · rw [firstValue?, hcells, firstValueOf]
  · rw [lastCause?, hcells, lastCauseOf]

/-! ## The call -/

section Call

variable {w₀ : World V} {x : Waiter V} {e : Nat} {bodies : List (Body V)} {bound : Option Duration}

/-- A turn of a caller that waits for the first value. -/
theorem Reached.race_turn (hr : Reached (.turn (.waiter j)) w) (hx : w.waiters[j]? = some x)
    (hst : x.stage = .waiting (.batch b) (bound.bind (Instant.after? w₀.now)))
    (hq : x.request = .invokeAny e bodies bound) (hb : w.batches[b]? = some batch)
    (hraced : w.Raced batch) :
    (¬ w.RaceOver batch.cells (bound.bind (Instant.after? w₀.now)) →
      (w.waiterTurn j).waiters[j]? = some x ∧ (w.waiterTurn j).log = w.log) ∧
    (w.RaceOver batch.cells (bound.bind (Instant.after? w₀.now)) →
      ∃ r, w.RaceResult batch.cells bound r ∧
        (w.waiterTurn j).waiters[j]? = some { x with stage := .ended } ∧
        (w.waiterTurn j).log = w.log ++ [⟨w.now, x.name, .answered (.read r)⟩] ∧
        ∀ c ∈ batch.cells, Silent (.caller none) (w.waiterTurn j) c) := by
  have hturn : w.waiterTurn j =
      w.checkWaiter j x (.batch b) (bound.bind (Instant.after? w₀.now)) := by
    rw [waiterTurn, hx]
    dsimp only
    rw [hst]
  rw [hturn]
  refine ⟨fun hover => ?_, fun hover => ?_⟩
  · rw [checkWaiter_not_over hraced hb hover]
    refine ⟨?_, rfl⟩
    show (w.waiters.modify j _)[j]? = _
    rw [List.getElem?_modify_eq, hx, ← hst]
    rfl
  · rw [checkWaiter_over hraced hb hover]
    obtain ⟨hended, hlog, hcells⟩ := conclude_any hb hx hq batch.notified
    refine ⟨_, hraced.result hover (fun h => by rw [h]; rfl), hended, hlog, fun c hc => ?_⟩
    refine .of_no_body ?_ rfl
    have hs := cancelAll_settles (batch_cell_lt hr hb) c hc
    rw [isSettled_eq] at hs ⊢
    rw [hcells]
    exact hs

/-- When no task is ready, a caller that waits for the first value has reason to. -/
theorem Reached.race_goes_on (hr : Reached (.caller none) w) (hready : w.ready = [])
    (hx : w.waiters[j]? = some x) {deadline : Option Instant}
    (hst : x.stage = .waiting (.batch b) deadline) (hb : w.batches[b]? = some batch)
    (hraced : w.Raced batch) : ¬ w.RaceOver batch.cells deadline := by
  obtain ⟨hcome, htime⟩ := hr.waits_on hready hx hst
  have hnot : ¬ batch.notified = true := by
    rw [hasCome, hb] at hcome
    exact Bool.eq_false_iff.mp hcome
  rw [hraced.notified_iff] at hnot
  rintro (hv | hended | ⟨t, ht, hle⟩)
  · exact hnot (.inl hv)
  · exact hnot (.inr hended)
  · exact absurd hle (Nat.not_le.mpr (htime t ht))

/-- What is known of a call for the first value, and of its batch, after its first turn. -/
theorem Ops.racing (ops : Ops (.caller none) w f' w') (hr : Reached (.caller none) w)
    {new old : List (Child V)} {deadline : Option Instant} (hx : w.waiters[j]? = some x)
    (hst : x.stage = .waiting (.batch b) deadline)
    (hb : w.batches[b]? = some { cells := new.map (·.cell), remaining := bodies.length })
    (hchildren : w.children = old ++ new) (hworks : new.map (·.work) = bodies.map (.oneOfAny b))
    (hne : bodies ≠ []) :
    ∃ batch y, w'.batches[b]? = some batch ∧ batch.cells = new.map (·.cell) ∧ w'.Raced batch ∧
      w'.waiters[j]? = some y ∧ y.name = x.name ∧ y.request = x.request ∧
      (y.stage = .ended ∨ y.stage = .waiting (.batch b) deadline) := by
  obtain ⟨y, hy, hname, hreq, hs⟩ := ops.waits hr hx hst
  obtain ⟨batch, hb', hl⟩ := ops.later.batches _ _ hb
  -- One of the children tells that the batch is raced.
  obtain ⟨body, child, hc, hwork⟩ := ops.later.exists_handed hchildren hworks hne
  have hraced := (hr.ops ops).raced hb' hc (by rw [hwork]; rfl)
  exact ⟨batch, y, hb', hl.cells, hraced, hy, hname, hreq, hs⟩

/-- A call for the first value of some bodies, on a running executor and with time left, hands in a
child for each of them in its first turn, and waits. It returns at its first turn at which a body
has ended with a value, or all children have ended, or its time is up; an earlier turn only lets it
wait again. It returns the value of the body that ended with one first; without one it times out
while a child is under way; and else it tells the cause of the body that failed last, or that all
were cancelled. Then the future of every child is settled, and no body of theirs is made or let go
on at any later time. When no task is ready, a call that waits has reason to. -/
theorem Reached.first_value (hr : Reached (.turn (.waiter j)) w₀) (hx : w₀.waiters[j]? = some x)
    (hst : x.stage = .created) (hq : x.request = .invokeAny e bodies bound)
    (hrun : w₀.isRunning e = true) (hne : bodies ≠ []) (hz : isZeroBound bound = false) :
    ∃ new : List (Child V), (w₀.waiterTurn j).children = w₀.children ++ new ∧
      new.map (·.work) = bodies.map (.oneOfAny w₀.batches.length) ∧
      (∀ child ∈ new, child.executor = e) ∧
      (w₀.waiterTurn j).waiters[j]? = some { x with
        stage := .waiting (.batch w₀.batches.length) (bound.bind (Instant.after? w₀.now)) } ∧
      (∀ (w : World V) (y : Waiter V), Ops (.caller none) (w₀.waiterTurn j) (.turn (.waiter j)) w →
        w.waiters[j]? = some y → y.stage ≠ .ended →
        (¬ w.RaceOver (new.map (·.cell)) (bound.bind (Instant.after? w₀.now)) →
          (w.waiterTurn j).waiters[j]? = some y ∧ (w.waiterTurn j).log = w.log) ∧
        (w.RaceOver (new.map (·.cell)) (bound.bind (Instant.after? w₀.now)) →
          ∃ r, w.RaceResult (new.map (·.cell)) bound r ∧
            (w.waiterTurn j).waiters[j]? = some { y with stage := .ended } ∧
            (w.waiterTurn j).log = w.log ++ [⟨w.now, x.name, .answered (.read r)⟩] ∧
            ∀ c ∈ new.map (·.cell), (w.waiterTurn j).isSettled c = true ∧
              ∀ (f' : Focus) (w' : World V), Ops (.caller none) (w.waiterTurn j) f' w' →
                ∃ l, w'.history = (w.waiterTurn j).history ++ l ∧
                  ∀ p ∈ l, p.2.isRun c = false)) ∧
      ∀ (w : World V) (y : Waiter V), Ops (.caller none) (w₀.waiterTurn j) (.caller none) w →
        w.ready = [] → w.waiters[j]? = some y → y.stage ≠ .ended →
          ¬ w.RaceOver (new.map (·.cell)) (bound.bind (Instant.after? w₀.now)) := by
  obtain ⟨n, hturn⟩ := waiterTurn_any hx hst hq hrun hne hz rfl
  obtain ⟨new, hchildren, hworks, hnew, hbatches⟩ :=
    openBatch_new (w₀.report n) e x.name .oneOfAny bodies
  have hr₁ := waiterTurn_leads.reached hr
  have hx₁ : (w₀.waiterTurn j).waiters[j]? = some { x with
      stage := .waiting (.batch w₀.batches.length) (bound.bind (Instant.after? w₀.now)) } := by
    rw [hturn]
    show ((openBatch _ _ _ _ _).waiters.modify j _)[j]? = _
    rw [(openBatch_frame ..).1, List.getElem?_modify_eq]
    exact congrArg _ hx
  have hb₁ : (w₀.waiterTurn j).batches[w₀.batches.length]? =
      some { cells := new.map (·.cell), remaining := bodies.length } := by
    rw [hturn]
    show (openBatch _ _ _ _ _).batches[_]? = _
    rw [hbatches]
    exact getElem?_concat_iff.mpr (.inr ⟨rfl, rfl⟩)
  have hchildren₁ : (w₀.waiterTurn j).children = w₀.children ++ new := by
    rw [hturn]
    exact hchildren
  refine ⟨new, hchildren₁, hworks, hnew, hx₁, ?_, ?_⟩
  · intro w y ops hy hye
    obtain ⟨batch, z, hb, hcells, hraced, hy', hname, hreq, hs⟩ :=
      ops.racing hr₁ hx₁ rfl hb₁ hchildren₁ hworks hne
    obtain rfl := Option.some.inj (hy.symm.trans hy')
    obtain ⟨hwaits, hreturns⟩ :=
      (hr₁.ops ops).race_turn hy (hs.resolve_left hye) (hreq.trans hq) hb hraced
    rw [hcells] at hwaits hreturns
    refine ⟨hwaits, fun hover => ?_⟩
    obtain ⟨r, hresult, hended, hlog, hsilent⟩ := hreturns hover
    rw [hname] at hlog
    have hr₂ := waiterTurn_leads.reached (hr₁.ops ops)
    exact ⟨r, hresult, hended, hlog, fun c hc => ⟨(hsilent c hc).settled, fun f' w' ops' =>
      ops'.silent hr₂ (hsilent c hc)⟩⟩
  · intro w y ops hready hy hye
    obtain ⟨batch, z, hb, hcells, hraced, hy', -, -, hs⟩ :=
      ops.racing hr₁ hx₁ rfl hb₁ hchildren₁ hworks hne
    obtain rfl := Option.some.inj (hy.symm.trans hy')
    rw [← hcells]
    exact (hr₁.ops ops).race_goes_on hready hy (hs.resolve_left hye) hb hraced

end Call

/-- A call hands in three bodies: one that fails, one that yields a value, one that goes on. -/
def threeRunners : World Nat :=
  { (World.start false).after
      [.call (.create "pool" none none none none),
        .call (.invokeAny "call" "pool" [.steps [.err (.text "no")], .steps [.ok (some 7)],
          .steps [.pending]] none)] with
    ready := [] }

/-- The state in which the caller takes its next turn. -/
def threeRuns : World Nat := { (threeRunners.waiterTurn 0).turn.turn.turn with ready := [] }

theorem first_value_threeRuns :
    (threeRuns.waiterTurn 0).log =
      threeRuns.log ++ [⟨0, "call", .answered (.read (.ok (some 7)))⟩] ∧
    ∀ c ∈ [0, 1, 2], (threeRuns.waiterTurn 0).isSettled c = true := by
  have hr : Reached (.turn (.waiter 0)) threeRunners := (Reached.after false _).op (.take rfl)
  obtain ⟨new, hchildren, -, -, -, hturns, -⟩ :=
    Reached.first_value hr rfl rfl rfl rfl (by simp) rfl
  obtain rfl : (threeRunners.waiterTurn 0).children = new := hchildren
  have ops : Ops (.caller none) (threeRunners.waiterTurn 0) (.turn (.waiter 0)) threeRuns := by
    have h := (turn_leads.trans (turn_leads.trans turn_leads)) (waiterTurn_leads.reached hr)
    exact h.ops.trans (Op.take rfl).ops
  obtain ⟨r, hresult, -, hlog, hcells⟩ :=
    (hturns threeRuns _ ops rfl (by simp)).2 (.inl ⟨some 7, rfl⟩)
  obtain rfl := (hresult.value (some 7)).mpr rfl
  exact ⟨hlog, fun c hc => (hcells c hc).1⟩

end TimedTasks

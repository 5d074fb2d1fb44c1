import TimedTasks.Proofs.AllSettled
import TimedTasks.Proofs.FirstValue
import TimedTasks.Proofs.Termination
/-!
What is waited for when no task is ready. Whatever waits then waits for something that has not come:
a waiter for a result, a termination or its batch, and for its bound, which counts from its first
turn; a body for what it is suspended on; a task between its runs for its due time; and an executor
that drains for a child of its own.
-/

namespace TimedTasks

variable {V : Type} {i j : Nat} {child : Child V}

namespace World

variable {w w₀ : World V} {x : Waiter V}

/-! ## Children -/

/-- Whether a task of which no run is under way waits for its due time, at which it may run if it is
periodic, or has none to wait for. -/
def AwaitsTime (w : World V) (child : Child V) : Prop :=
  match child.work with
  | .delayed due _ => w.now < due
  | .periodic pace _ =>
    w.now < w.dueTime child ∧ w.mayRun child.executor .periodic = true ∨
    ∃ t value, (t, .ended child.cell (.returned value)) ∈ w.history ∧
      pace.next? (w.dueTime child) t = none
  | _ => False

/-- Whether a child that has not ended waits for something that has not come. -/
structure Waits (w : World V) (child : Child V) : Prop where
  unsettled : w.outcomeOf child.cell = none
  suspended : w.underWay child.cell = true ↔ ∃ on rest, child.stage = .suspended on rest
  pending : ∀ on rest, child.stage = .suspended on rest → on.Pending w
  idle : w.underWay child.cell = false → w.AwaitsTime child

/-! ## Waiters -/

/-- Whether a time has not come yet, or there is none. -/
def Before (w : World V) (deadline : Option Instant) : Prop := ∀ t, deadline = some t → w.now < t

/-- The cells of the tasks that a waiter hands in when it has its first turn. -/
def handedIn (w : World V) (j : Nat) : List Nat :=
  ((w.waiterTurn j).children.drop w.children.length).map (·.cell)

/-- Whether a request has reason to wait still in `w`, if its waiter had its first turn in `w₀`. -/
def Unanswered (w₀ : World V) (j : Nat) (w : World V) : Request V → Prop
  | .get c bound => w.outcomeOf c = none ∧ w.Before (bound.bind (Instant.after? w₀.now))
  | .termination e bound =>
    w.stateOf? e ≠ some .terminated ∧ w.Before (Instant.after? w₀.now bound)
  | .invokeAll _ _ bound =>
    ¬ w.GatherOver (w₀.handedIn j) (bound.bind (Instant.after? w₀.now))
  | .invokeAny _ _ bound =>
    ¬ w.RaceOver (w₀.handedIn j) (bound.bind (Instant.after? w₀.now))

/-! ## The first turn of a waiter -/

section FirstTurn

variable {on : Awaited} {deadline : Option Instant} {e : Nat} {bodies : List (Body V)}
  {bound : Option Duration}

theorem conclude_ends (hx : w.waiters[j]? = some x) (hq : ∀ b, ¬ x.request.Suits (.batch b))
    (inTime : Bool) :
    (w.conclude j x on inTime).waiters[j]? = some { x with stage := .ended } := by
  have hfinish : ∃ a, w.conclude j x on inTime = w.finishWaiter j x.name a := by
    unfold conclude
    cases hr : x.request with
    | get c bound =>
      dsimp only
      split <;> exact ⟨_, rfl⟩
    | termination e bound => exact ⟨_, rfl⟩
    | invokeAll e bodies bound | invokeAny e bodies bound =>
      exact absurd (by rw [hr]; exact ⟨0, rfl⟩) (hq 0)
  obtain ⟨a, ha⟩ := hfinish
  rw [ha]
  exact (finishWaiter_frame hx a).1

/-- A waiter that has looked has ended or waits. -/
theorem checkWaiter_looked (hx : w.waiters[j]? = some x)
    (hq : ∀ b, ¬ x.request.Suits (.batch b)) :
    (w.checkWaiter j x on deadline).waiters[j]? = some { x with stage := .ended } ∨
      (w.checkWaiter j x on deadline).waiters[j]? =
        some { x with stage := .waiting on deadline } := by
  have hwaits : ((w.modifyWaiter j fun y => { y with stage := .waiting on deadline }).suspend
      (.waiter j)).waiters[j]? = some { x with stage := .waiting on deadline } := by
    show (w.waiters.modify j _)[j]? = _
    rw [List.getElem?_modify_eq, hx]
    rfl
  cases hc : w.hasCome on with
  | true =>
    refine .inl ?_
    unfold checkWaiter
    rw [hc, if_pos rfl]
    exact conclude_ends hx hq true
  | false =>
    by_cases hd : w.Before deadline
    · refine .inr ?_
      rw [checkWaiter_waits hc hd]
      exact hwaits
    · obtain ⟨t, rfl, ht⟩ : ∃ t, deadline = some t ∧ t ≤ w.now := by
        simpa [Before] using hd
      refine .inl ?_
      rw [checkWaiter_late hc ht]
      exact conclude_ends hx hq false

/-- Whether a call for some bodies hands them in. -/
def HandsIn (w : World V) (e : Nat) (bodies : List (Body V)) (bound : Option Duration) : Prop :=
  w.isRunning e = true ∧ isZeroBound bound = false ∧ bodies ≠ []

/-- A call for all of some bodies that does not hand them in ends at once. -/
theorem beginAll_ends (hx : w.waiters[j]? = some x) (h : ¬ w.HandsIn e bodies bound) :
    (w.beginAll j x e bodies bound).waiters[j]? = some { x with stage := .ended } := by
  let w₁ := w.report (.invokeAllCalled (w.nameOf e) bodies.length bound)
  unfold beginAll
  dsimp only
  split
  · exact (finishWaiter_frame (w := (w₁.reject e).1) hx (.error (w₁.reject e).2)).1
  · rename_i hrun
    have hrun : w.isRunning e = true := by
      rw [Bool.not_eq_true, Bool.not_eq_false'] at hrun
      exact hrun
    split
    · refine (answerAll_frame (w := (addCancelledCells _ _).1) ?_ _).1
      rw [addCancelledCells_cells]
      exact hx
    · rename_i hz
      have hnone : bodies = [] := by
        simpa [HandsIn, hrun, Bool.eq_false_iff.mpr hz] using h
      rw [if_pos (by simp [hnone])]
      exact (answerAll_frame (w := w₁) hx []).1

/-- A call for the first value of some bodies that does not hand them in ends at once. -/
theorem beginAny_ends (hx : w.waiters[j]? = some x) (h : ¬ w.HandsIn e bodies bound) :
    (w.beginAny j x e bodies bound).waiters[j]? = some { x with stage := .ended } := by
  let w₁ := w.report (.invokeAnyCalled (w.nameOf e) bodies.length bound)
  have ended : ∀ a, (w₁.finishWaiter j x.name a).waiters[j]? = some { x with stage := .ended } :=
    fun a => (finishWaiter_frame (w := w₁) hx a).1
  unfold beginAny
  dsimp only
  split
  · exact ended _
  · rename_i hne
    split
    · exact (finishWaiter_frame (w := (w₁.reject e).1) hx (.error (w₁.reject e).2)).1
    · rename_i hrun
      have hrun : w.isRunning e = true := by
        rw [Bool.not_eq_true, Bool.not_eq_false'] at hrun
        exact hrun
      split
      · exact ended _
      · rename_i hz
        exact absurd ⟨hrun, Bool.eq_false_iff.mpr hz, by simpa using hne⟩ h

theorem waiterTurn_created (hx : w.waiters[j]? = some x) (hst : x.stage = .created) :
    w.waiterTurn j = w.beginWaiter j x := by
  rw [waiterTurn, hx]
  dsimp only
  rw [hst]

end FirstTurn

end World

open World

variable {w w₀ : World V}

/-! ## When no task is ready -/

/-- When no task is ready, a run of a task is under way just if its body is suspended. -/
theorem Walked.underWay_iff (h : Walked (.caller none) w) (hc : w.children[i]? = some child)
    (he : child.hasEnded = false) (ho : w.outcomeOf child.cell = none) :
    w.underWay child.cell = true ↔ ∃ on rest, child.stage = .suspended on rest := by
  have hr := h.reached
  constructor
  · intro hway
    have hphase := (hr.phased child (List.mem_of_getElem? hc) ho).mp hway
    exact hr.suspended_of_running hc he (by simp [Focus.body?]) hphase
  · rintro ⟨on, rest, hs⟩
    have htimely := h.steady.timely hc (by simp [Focus.task?])
    simpa [Timely, hs] using htimely

/-- When no task is ready, a child whose body is not suspended waits for its time, or for none. -/
theorem Walked.awaits_time (h : Walked (.caller none) w) (hc : w.children[i]? = some child)
    (he : child.hasEnded = false) (ho : w.outcomeOf child.cell = none)
    (hsleeps : child.stage.Sleeps w) (hway : w.underWay child.cell = false) :
    w.AwaitsTime child := by
  have hr := h.reached
  have htimely := h.steady.timely hc (by simp [Focus.task?])
  have hspared := h.steady.spared hc (by simp [Focus.task?]) (by simp [Focus.leaving?]) ho
  have hsuits := (hr.tended.tends hc (List.getElem?_eq_getElem (hr.owned.cell_lt hc))).suits
  unfold AwaitsTime
  cases hs : child.stage with
  | created =>
    rw [hs] at hsleeps
    cases hsleeps
  | scheduled due =>
    rw [hs] at hsleeps hsuits
    cases hw : child.work with
    | delayed due' body =>
      rw [hw] at hsuits
      exact hsuits ▸ hsleeps
    | periodic pace runs =>
      simp only [Timely, hs, hw] at htimely
      exact .inl ⟨(htimely hsleeps).symm ▸ hsleeps, hspared due hs (by rw [hw]; rfl) hsleeps⟩
    | _ =>
      rw [hw] at hsuits
      cases hsuits
  | suspended on rest =>
    rw [(h.underWay_iff hc he ho).mpr ⟨on, rest, hs⟩] at hway
    cases hway
  | stranded =>
    rw [hs] at hsuits
    cases hw : child.work with
    | periodic pace runs =>
      simp only [Timely, hs, hw] at htimely
      exact .inr htimely
    | _ =>
      rw [hw] at hsuits
      cases hsuits
  | ended => simp [Child.hasEnded, hs] at he

/-- When no task is ready, a child that has not ended has reason to wait. -/
theorem Walked.child_waits (h : Walked (.caller none) w) (hready : w.ready = [])
    (hc : w.children[i]? = some child) (he : child.hasEnded = false) : w.Waits child := by
  obtain ⟨y, hy, hn, hsleeps⟩ := h.reached.sleeps hready (live_child.mpr ⟨child, hc, he⟩)
  obtain rfl := Option.some.inj (hc.symm.trans hy)
  have ho := outcomeOf_of_not_signalled h.reached hc he hn
  refine ⟨ho, h.underWay_iff hc he ho, fun on rest hs => ?_, h.awaits_time hc he ho hsleeps⟩
  rw [hs] at hsleeps
  exact hsleeps

/-- When no task is ready, a waiter that has had its first turn and not ended has reason to wait. -/
theorem Ops.unanswered (ops : Ops (.caller none) (w₀.waiterTurn j) (.caller none) w)
    (hr : Reached (.turn (.waiter j)) w₀) {x y : Waiter V} (hx : w₀.waiters[j]? = some x)
    (hst : x.stage = .created) (hready : w.ready = []) (hy : w.waiters[j]? = some y)
    (hye : y.stage ≠ .ended) : w₀.Unanswered j w x.request := by
  have hr₁ : Reached (.caller none) (w₀.waiterTurn j) := waiterTurn_leads.reached hr
  have goes_on : (w₀.waiterTurn j).waiters[j]? ≠ some { x with stage := .ended } := by
    intro h
    obtain ⟨z, hz, hl⟩ := ops.later.waiters j _ h
    obtain rfl := Option.some.inj (hy.symm.trans hz)
    exact hye (hl.hasEnded rfl)
  have waits : ∀ {on : Awaited} {deadline : Option Instant},
      (w₀.waiterTurn j).waiters[j]? = some { x with stage := .waiting on deadline } →
      y.stage = .waiting on deadline ∧ w.hasCome on = false ∧ w.Before deadline := by
    intro on deadline h
    obtain ⟨z, hz, -, -, hs⟩ := ops.waits hr₁ h rfl
    obtain rfl := Option.some.inj (hy.symm.trans hz)
    exact ⟨hs.resolve_left hye, (hr₁.ops ops).waits_on hready hy (hs.resolve_left hye)⟩
  have hturn := waiterTurn_created hx hst
  rw [beginWaiter] at hturn
  cases hq : x.request with
  | get c bound =>
    simp only [hq] at hturn
    rw [hturn] at goes_on waits
    obtain ⟨-, hcome, hbefore⟩ :=
      waits ((checkWaiter_looked hx (by simp [hq, Request.Suits])).resolve_left goes_on)
    exact ⟨isSettled_eq_false_iff.mp hcome, hbefore⟩
  | termination e bound =>
    simp only [hq] at hturn
    rw [hturn] at goes_on waits
    obtain ⟨-, hcome, hbefore⟩ :=
      waits ((checkWaiter_looked (w := w₀.report _) hx (by simp [hq, Request.Suits])).resolve_left
        goes_on)
    exact ⟨by simpa [hasCome, isTerminated] using hcome, hbefore⟩
  | invokeAll e bodies bound =>
    simp only [hq] at hturn
    by_cases hopens : w₀.HandsIn e bodies bound
    · obtain ⟨hrun, hz, hne⟩ := hopens
      obtain ⟨n, hturn⟩ := waiterTurn_all hx hst hq hrun hne hz rfl
      obtain ⟨new, hchildren, hworks, -, -, hx₁, hb₁⟩ := handed_in hx hturn
      obtain ⟨batch, hb, -, hn⟩ := ops.gathering hr₁ hb₁ hchildren hworks hne
      have hcells : w₀.handedIn j = new.map (·.cell) := by simp [handedIn, hchildren]
      rw [Unanswered, hcells]
      exact (hr₁.ops ops).gather_goes_on hready hy (waits hx₁).1 hb hn
    · exact absurd (hturn ▸ beginAll_ends hx hopens) goes_on
  | invokeAny e bodies bound =>
    simp only [hq] at hturn
    by_cases hopens : w₀.HandsIn e bodies bound
    · obtain ⟨hrun, hz, hne⟩ := hopens
      obtain ⟨n, hturn⟩ := waiterTurn_any hx hst hq hrun hne hz rfl
      obtain ⟨new, hchildren, hworks, -, -, hx₁, hb₁⟩ := handed_in hx hturn
      obtain ⟨batch, z, hb, hbatch, hraced, -⟩ :=
        ops.racing hr₁ hx₁ rfl hb₁ hchildren hworks hne
      have hcells : w₀.handedIn j = batch.cells := by simp [handedIn, hchildren, hbatch]
      rw [Unanswered, hcells]
      exact (hr₁.ops ops).race_goes_on hready hy (waits hx₁).1 hb hraced
    · exact absurd (hturn ▸ beginAny_ends hx hopens) goes_on

/-- When no task is ready, a waiter that has not ended waits. -/
theorem Reached.waiter_waits (hr : Reached (.caller none) w) (hready : w.ready = [])
    {y : Waiter V} (hy : w.waiters[j]? = some y) (hye : y.stage ≠ .ended) :
    ∃ on deadline, y.stage = .waiting on deadline ∧ y.request.Suits on ∧ w.hasCome on = false ∧
      w.Before deadline := by
  obtain ⟨z, on, deadline, hz, hst, hcome, htime⟩ :=
    hr.sleeps hready (live_waiter.mpr ⟨y, hy, hye⟩)
  obtain rfl := Option.some.inj (hy.symm.trans hz)
  exact ⟨on, deadline, hst, (hr.sound.seated hy).suits hst, hcome, htime⟩

/-- When no task is ready, an executor that drains has a child that has not ended. -/
theorem Reached.drains_for (hr : Reached (.caller none) w) (hready : w.ready = []) {e : Nat}
    {x : Executor} (hx : w.executors[e]? = some x) (hs : x.state = .draining) :
    ∃ child ∈ w.children, child.executor = e ∧ child.hasEnded = false := by
  have hu : w.unended e ≠ 0 := by
    intro hu
    have ht := hr.terminated_of_quiet hready hx (by simp [hs]) hu
    rw [hs] at ht
    cases ht
  obtain ⟨child, hc, hp⟩ := List.countP_pos_iff.mp (Nat.pos_of_ne_zero hu)
  exact ⟨child, hc, by simpa using hp⟩

/-- When no task is ready, everything that waits still has reason to. A waiter waits for what it was
asked for, which has not come, and is within its bound, counted from its first turn: a result, a
termination, the end of all its tasks or the first value of one. The future of a task that has not
ended is unsettled; its body waits for something that has not come, or it waits for its due time, or
it is periodic and has no due time that could be represented. An executor that drains has a task
that has not ended. -/
theorem Walked.waits_with_reason (h : Walked (.caller none) w) (hready : w.ready = []) :
    (∀ (j : Nat) (y : Waiter V), w.waiters[j]? = some y → y.stage ≠ .ended →
      (∃ on deadline, y.stage = .waiting on deadline ∧ y.request.Suits on ∧
        w.hasCome on = false ∧ w.Before deadline) ∧
      ∀ (w₀ : World V) (x : Waiter V), Reached (.turn (.waiter j)) w₀ →
        w₀.waiters[j]? = some x → x.stage = .created →
        Ops (.caller none) (w₀.waiterTurn j) (.caller none) w → w₀.Unanswered j w x.request) ∧
    (∀ (i : Nat) (child : Child V), w.children[i]? = some child → child.hasEnded = false →
      w.Waits child) ∧
    ∀ (e : Nat) (x : Executor), w.executors[e]? = some x → x.state = .draining →
      ∃ child ∈ w.children, child.executor = e ∧ child.hasEnded = false := by
  refine ⟨fun j y hy hye => ⟨h.reached.waiter_waits hready hy hye, ?_⟩,
    fun i child hc he => h.child_waits hready hc he,
    fun e x hx hs => h.reached.drains_for hready hx hs⟩
  intro w₀ x hr hx hst ops
  exact ops.unanswered hr hx hst hready hy hye

/-- An executor has a task that goes on for ever, a delayed one and a periodic one; and a waiter is
about to ask for the result of the first, within seven nanoseconds. -/
def callersRoom : World Nat :=
  (World.start true).after
    [.call (.create "pool" none none none none),
      .call (.submit "pool" "long" none (.steps [.pending])),
      .call (.schedule "pool" "later" ⟨4, by decide⟩ (.steps [.ok (some 7)])),
      .call (.repeating "pool" "again" (.fixedRate ⟨3, by decide⟩) ⟨2, by decide⟩ [.steps []]),
      .settle, .call (.get "caller" "long" (some ⟨7, by decide⟩))]

/-- The state in which it waits for that. -/
def waitingRoom : World Nat := callersRoom.turn

theorem waits_with_reason_waitingRoom :
    (waitingRoom.outcomeOf 0 = none ∧ waitingRoom.Before (some 7)) ∧
    waitingRoom.children.length = 3 ∧ ∀ child ∈ waitingRoom.children, waitingRoom.Waits child := by
  have hasks : Walked (.caller none) callersRoom := (Walked.start true).after _
  have hwalked : Walked (.caller none) waitingRoom :=
    hasks.moves ((turn_leads hasks.reached).moves hasks)
  obtain ⟨hwaiters, hchildren, -⟩ := Walked.waits_with_reason hwalked rfl
  obtain ⟨-, hreason⟩ := hwaiters 0 _ rfl (by simp)
  refine ⟨?_, rfl, fun child hc => ?_⟩
  · have hunanswered := hreason _ _ (hasks.reached.op (.take rfl)) rfl rfl .refl
    have hdeadline : Instant.after? callersRoom.now ⟨7, by decide⟩ = some 7 := if_pos (by decide)
    exact ⟨hunanswered.1, fun t ht => hunanswered.2 t (hdeadline.trans ht)⟩
  · obtain ⟨i, hi⟩ := List.mem_iff_getElem?.mp hc
    have hlive : ∀ child ∈ waitingRoom.children, child.hasEnded = false := by decide
    exact hchildren i child hi (hlive child hc)

end TimedTasks

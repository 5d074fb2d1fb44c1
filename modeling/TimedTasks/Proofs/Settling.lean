import TimedTasks.Proofs.Figures
/-!
The life of a future. It is settled once, by whatever decides first; every way to read it yields
that outcome from then on; and a request to cancel is granted exactly if it settles the future.
-/

namespace TimedTasks

open World

variable {V : Type} {f f' : Focus} {w w' : World V} {c : Nat} {o : Outcome V}

/-! ## Reading -/

namespace World

/-- How a body goes on once it has read a future whose errors it takes for its own: after a value it
goes on with what is left of it, with an error it fails. -/
def afterJoin (w : World V) (who : String) (r : Except TaskError (Option V))
    (rest : List (Step V)) : World V × Progress V :=
  match r with
  | .ok value => (w.note who (.answered (.read (.ok value)))).runSteps who rest
  | .error e => (w.note who (.answered (.read (.error e))), .ended (.failed (.error e)))

/-- Every way to read a cell yields `r`, at once. -/
structure Reads (w : World V) (c : Nat) (r : Except TaskError (Option V)) : Prop where
  thread : ∀ {name : String} {h : Handle} (thread : String), w.futureNames.get? name = some h →
    h.cell = c → w.perform (.blockingGet thread name) = (w, .read r)
  parked : ∀ {thread : String}, w.threadNames.get? thread = some c →
    (w.perform (.threadJoin thread)).2 = .read r
  body : ∀ {name : String} {h : Handle} (who : String) (rest : List (Step V)),
    w.futureNames.get? name = some h → h.cell = c →
      w.runSteps who (.get name :: rest) = (w.note who (.answered (.read r))).runSteps who rest
  suspended : ∀ (who : String) (rest : List (Step V)),
    w.resumeSteps who (.cell c false) rest = (w.note who (.answered (.read r))).runSteps who rest
  joined : ∀ {name : String} {h : Handle} (who : String) (rest : List (Step V)),
    w.futureNames.get? name = some h → h.cell = c →
      w.runSteps who (.join name :: rest) = w.afterJoin who r rest
  suspendedJoin : ∀ (who : String) (rest : List (Step V)),
    w.resumeSteps who (.cell c true) rest = w.afterJoin who r rest
  waiter : ∀ {j : Nat} {x : Waiter V} {bound : Option Duration}, w.waiters[j]? = some x →
    x.request = .get c bound → x.stage ≠ .ended →
      w.waiterTurn j = w.finishWaiter j x.name (.read r)

theorem read?_eq (ho : w.outcomeOf c = some o) : w.read? c = some o.read := by
  rw [read?, ho]
  rfl

theorem checkWaiter_get {j : Nat} {x : Waiter V} {bound : Option Duration}
    (ho : w.outcomeOf c = some o) (hq : x.request = .get c bound) (deadline : Option Instant) :
    w.checkWaiter j x (.cell c) deadline = w.finishWaiter j x.name (.read o.read) := by
  have hcome : w.hasCome (.cell c) = true := Option.isSome_iff_exists.mpr ⟨o, ho⟩
  unfold checkWaiter
  rw [if_pos hcome]
  unfold conclude
  rw [hq]
  dsimp only
  rw [read?_eq ho]

end World

/-- A future that is settled is read with its outcome. -/
theorem Reached.reads (hr : Reached f w) (ho : w.outcomeOf c = some o) : w.Reads c o.read where
  thread {name h} thread hn hc := by
    subst hc
    rw [perform, onFuture, World.future, hn]
    dsimp only
    rw [blockingGet, read?_eq ho]
  parked {thread} ht := by
    rw [perform, threadJoin, ht]
    dsimp only
    rw [read?_eq ho]
  body {name h} who rest hn hc := by
    subst hc
    rw [runSteps, hn]
    dsimp only
    rw [read?_eq ho]
  suspended who rest := by
    unfold resumeSteps
    dsimp only
    rw [read?_eq ho]
    cases o <;> rfl
  joined {name h} who rest hn hc := by
    subst hc
    rw [runSteps, hn]
    dsimp only
    rw [read?_eq ho]
    cases o <;> rfl
  suspendedJoin who rest := by
    unfold resumeSteps
    dsimp only
    rw [read?_eq ho]
    cases o <;> rfl
  waiter {j x bound} hx hq hs := by
    rw [waiterTurn, hx]
    dsimp only
    cases hst : x.stage with
    | ended => exact absurd hst hs
    | created =>
      dsimp only
      rw [beginWaiter, hq]
      exact checkWaiter_get ho hq _
    | waiting on deadline =>
      -- A request to read a cell waits for no other one.
      have hon := (hr.sound.seated hx).suits hst
      rw [hq] at hon
      obtain rfl : on = .cell c := hon
      exact checkWaiter_get ho hq deadline

/-! ## Cancelling -/

theorem World.cancellable_iff {interrupt : Bool} :
    w.cancellable c interrupt = true ↔
      ∃ cell, w.cells[c]? = some cell ∧ cell.grants interrupt = true := by
  rw [cancellable_eq]
  cases w.cells[c]? <;> simp

/-- A request to cancel is granted exactly if it settles the cell. -/
theorem World.cancel_granted_iff {interrupt : Bool} :
    (w.cancel c interrupt).2 = true ↔
      w.outcomeOf c = none ∧ (w.cancel c interrupt).1.outcomeOf c = some .cancelled := by
  rw [cancel_snd]
  constructor
  · intro hg
    obtain ⟨cell, hc, hcell⟩ := cancellable_iff.mp hg
    have ho : cell.outcome = none := by
      simp only [Cell.grants, Bool.and_eq_true, Option.isNone_iff_eq_none] at hcell
      exact hcell.1
    refine ⟨by rw [outcomeOf, hc]; exact ho, ?_⟩
    rw [outcomeOf, cancel_cells, List.getElem?_modify_eq, hc]
    show (cell.cancelBy interrupt).outcome = _
    rw [Cell.cancelBy, if_pos hcell]
  · rintro ⟨hn, ho⟩
    cases hg : w.cancellable c interrupt with
    | true => rfl
    | false =>
      rw [cancel_refused hg, hn] at ho
      cases ho

/-- A settled cell is not cancelled any more. -/
theorem World.cancel_settled (ho : w.outcomeOf c = some o) (interrupt : Bool) :
    (w.cancel c interrupt).2 = false := by
  apply Bool.eq_false_iff.mpr
  intro hg
  rw [(cancel_granted_iff.mp hg).1] at ho
  cases ho

theorem World.perform_cancel {name : String} {h : Handle} (hn : w.futureNames.get? name = some h)
    (interrupt : Bool) :
    w.perform (.cancel name interrupt) =
      ((w.cancel h.cell interrupt).1, .flag (w.cancel h.cell interrupt).2) := by
  rw [perform, onFuture, World.future, hn]

/-- The end of a run does not change the outcome that a cancellation has set before. -/
theorem World.finish_outcomeOf {i : Nat} {child : Child V} (hc : w.children[i]? = some child)
    (ho : w.outcomeOf child.cell = some o) (r : RunEnd V) :
    (w.finish i child r).outcomeOf child.cell = some o := by
  obtain ⟨cell, hcell, ho⟩ := Option.bind_eq_some_iff.mp ho
  rw [outcomeOf, finish_cells r hc, List.getElem?_modify_eq, hcell]
  exact (Cell.Later.conclude cell _).outcome o ho

/-- The future of a child has the outcome that the history decides first: a value that the body ends
with, unless the child is periodic; a failure; or a cancellation, which a shutdown or a body that
breaks off is too. From then on the outcome stays, and every read yields the value, an error with
the cause of the failure, or that the task was cancelled. A request to cancel is granted exactly if
it settles the future, which one request does at most; one that is refused changes nothing. What the
body ends with after that is discarded. -/
theorem Reached.settles_once (hr : Reached f w) {i : Nat} {child : Child V}
    (hc : w.children[i]? = some child) :
    (w.outcomeOf child.cell = w.history.findSome? fun p => p.2.verdict? child.cell child.work) ∧
    (∀ o, w.outcomeOf child.cell = some o → ∀ (f' : Focus) (w' : World V), Ops f w f' w' →
      w'.outcomeOf child.cell = some o ∧
      (∀ value, o = .completed value → w'.Reads child.cell (.ok value)) ∧
      (∀ cause, o = .failed cause → w'.Reads child.cell (.error (.execution cause))) ∧
      (o = .cancelled → w'.Reads child.cell (.error .cancelled))) ∧
    (∀ interrupt : Bool,
      ((w.cancel child.cell interrupt).2 = true ↔ w.outcomeOf child.cell = none ∧
        (w.cancel child.cell interrupt).1.outcomeOf child.cell = some .cancelled) ∧
      ((w.cancel child.cell interrupt).2 = false → (w.cancel child.cell interrupt).1 = w) ∧
      ((w.cancel child.cell interrupt).2 = true → ∀ (f' : Focus) (w' : World V),
        Ops f (w.cancel child.cell interrupt).1 f' w' →
          ∀ interrupt', (w'.cancel child.cell interrupt').2 = false) ∧
      ∀ (name : String) (h : Handle), w.futureNames.get? name = some h → h.cell = child.cell →
        w.perform (.cancel name interrupt) = ((w.cancel child.cell interrupt).1,
          .flag (w.cancel child.cell interrupt).2)) ∧
    (f.body? = some i → ∀ o, w.outcomeOf child.cell = some o →
      ∀ r, (w.finish i child r).outcomeOf child.cell = some o) := by
  refine ⟨hr.judged.outcome child (List.mem_of_getElem? hc), fun o ho f' w' ops => ?_,
    fun interrupt => ⟨cancel_granted_iff, fun hg => ?_, fun hg f' w' ops interrupt' => ?_,
      fun name h hn hh => ?_⟩, fun _ o ho r => finish_outcomeOf hc ho r⟩
  · have ho' := ops.later.outcomeOf ho
    have hreads := (hr.ops ops).reads ho'
    refine ⟨ho', ?_, ?_, ?_⟩
    · rintro value rfl
      exact hreads
    · rintro cause rfl
      exact hreads
    · rintro rfl
      exact hreads
  · rw [cancel_snd] at hg
    rw [cancel_refused hg]
  · exact cancel_settled (ops.later.outcomeOf (cancel_granted_iff.mp hg).2) interrupt'
  · rw [← hh]
    exact perform_cancel hn interrupt

/-- Six tasks end: with the value of the body, with another one in its place, without one as nobody
wants it, with a failure, by breaking off, and with a value after the body has cancelled its own
task by two names. -/
def sixEnds : World Nat :=
  (World.start false).after
    [.call (.create "pool" none none none none),
      .call (.submit "pool" "value" none (.steps [.ok (some 7)])),
      .call (.submit "pool" "instead" (some (some 3)) (.steps [.ok (some 7)])),
      .call (.execute "pool" "unread" (.steps [.ok (some 7)])),
      .call (.submit "pool" "failure" none (.steps [.err (.text "boom")])),
      .call (.submit "pool" "break" none (.steps [.panic])),
      .call (.submit "pool" "cancelled" none
        (.steps [.act (.cancel "cancelled" true), .act (.cancel "other" true), .ok (some 7)])),
      .call (.share "cancelled" "other"), .settle]

theorem settles_once_sixEnds :
    sixEnds.Reads 0 (.ok (some 7)) ∧ sixEnds.Reads 1 (.ok (some 3)) ∧
      sixEnds.Reads 2 (.ok none) ∧ sixEnds.Reads 3 (.error (.execution (.text "boom"))) ∧
      sixEnds.Reads 4 (.error .cancelled) ∧ sixEnds.Reads 5 (.error .cancelled) ∧
      sixEnds.perform (.blockingGet "reader" "value") = (sixEnds, .read (.ok (some 7))) ∧
      sixEnds.perform (.blockingGet "reader" "failure") =
        (sixEnds, .read (.error (.execution (.text "boom")))) ∧
      ∃ child, sixEnds.children[5]? = some child ∧
        sixEnds.history.filterMap (fun p => p.2.verdict? child.cell child.work) =
          [.cancelled, .completed (some 7)] := by
  have hr : Reached (.caller none) sixEnds := Reached.after false _
  have value := (Reached.settles_once (i := 0) hr rfl).2.1 (.completed (some 7)) rfl _ _ .refl
  have own := (Reached.settles_once (i := 1) hr rfl).2.1 (.completed (some 3)) rfl _ _ .refl
  have unread := (Reached.settles_once (i := 2) hr rfl).2.1 (.completed none) rfl _ _ .refl
  have failure := (Reached.settles_once (i := 3) hr rfl).2.1 (.failed (.text "boom")) rfl _ _ .refl
  have broken := (Reached.settles_once (i := 4) hr rfl).2.1 .cancelled rfl _ _ .refl
  have cancelled := (Reached.settles_once (i := 5) hr rfl).2.1 .cancelled rfl _ _ .refl
  refine ⟨value.2.1 _ rfl, own.2.1 _ rfl, unread.2.1 _ rfl, failure.2.2.1 _ rfl,
    broken.2.2.2 rfl, cancelled.2.2.2 rfl, ?_, ?_, _, rfl, rfl⟩
  · exact (value.2.1 _ rfl).thread "reader" rfl rfl
  · exact (failure.2.2.1 _ rfl).thread "reader" rfl rfl

end TimedTasks

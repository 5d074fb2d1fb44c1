import TimedTasks.Proofs.Chronicle
/-!
What settles a future. The history has, for each task, a first thing that decides its outcome: the
end of its last run, or a cancellation.
-/

namespace TimedTasks

variable {V : Type}

/-- The value that a future yields when the body of its task ends with one: the value of its own
that it was made with, none if nobody wants it or a caller waits for the first one, else the
body's. -/
def Work.yields (work : Work V) (value : Option V) : Option V :=
  match work with
  | .once (.instead own) _ => own
  | .once .unwanted _ | .oneOfAny .. => none
  | .once .own _ | .delayed .. | .periodic .. | .oneOfAll .. => value

/-- What the end of a run decides. A run of a periodic task that succeeds decides nothing. -/
def Work.verdict? (work : Work V) : RunEnd V → Option (Outcome V)
  | .returned value =>
    if work.kind = .periodic then none else some (.completed (work.yields value))
  | .failed cause => some (.failed cause)
  | .stopped | .panicked => some .cancelled

namespace Happening

/-- The cell of the task that something befalls. -/
def cell? : Happening V → Option Nat
  | .called c | .polled c | .ended c _ | .cancelled c => some c
  | _ => none

/-- What something decides of the outcome of a task. -/
def verdict? (c : Nat) (work : Work V) : Happening V → Option (Outcome V)
  | .ended k r => if k = c then work.verdict? r else none
  | .cancelled k => if k = c then some .cancelled else none
  | _ => none

/-- Whether a task's body is made or let go on. -/
def isRun (c : Nat) : Happening V → Bool
  | .called k | .polled k => k == c
  | _ => false

theorem verdict?_of_cell? {h : Happening V} {c : Nat} (hc : h.cell? ≠ some c) (work : Work V) :
    h.verdict? c work = none := by
  cases h with
  | ended k r => exact if_neg fun hk => hc (congrArg some hk)
  | cancelled k => exact if_neg fun hk => hc (congrArg some hk)
  | _ => rfl

end Happening

theorem World.resultFor_returned (work : Work V) (value : Option V) :
    World.resultFor work (.returned value) = .returned (work.yields value) := by
  cases work with
  | once yield body => cases yield <;> rfl
  | _ => rfl

theorem World.resultFor_of_not_returned {work : Work V} {r : RunEnd V}
    (hr : ∀ value, r ≠ .returned value) : World.resultFor work r = r := by
  cases r with
  | returned value => exact absurd rfl (hr value)
  | _ =>
    cases work with
    | once yield body => cases yield <;> rfl
    | _ => rfl

/-- The outcome of a cell whose task has ended is its own, or the verdict on the end. -/
theorem Cell.conclude_outcome (cell : Cell V) {work : Work V} {r : RunEnd V}
    (hk : work.kind = .periodic → ∀ value, r ≠ .returned value) :
    ∃ o, work.verdict? r = some o ∧
      (cell.conclude (World.resultFor work r)).outcome = cell.outcome.or (some o) := by
  have hsome : ∀ (q : RunEnd V) o, q.outcome? = some o →
      (cell.conclude q).outcome = cell.outcome.or (some o) := by
    intro q o ho
    unfold conclude cancelBy settleBy
    rw [ho]
    split
    · rename_i hg
      cases hc : cell.outcome <;> simp [grants, hc] at hg
    · rfl
  cases r with
  | returned value =>
    have hp : work.kind ≠ .periodic := fun hp => hk hp value rfl
    refine ⟨.completed (work.yields value), by rw [Work.verdict?, if_neg hp], ?_⟩
    rw [World.resultFor_returned]
    exact hsome _ _ rfl
  | failed cause =>
    rw [World.resultFor_of_not_returned (r := .failed cause) (by simp)]
    exact ⟨.failed cause, rfl, hsome _ _ rfl⟩
  | stopped =>
    rw [World.resultFor_of_not_returned (r := .stopped) (by simp)]
    exact ⟨.cancelled, rfl, hsome _ _ rfl⟩
  | panicked =>
    -- A run that breaks off settles nothing itself; the cancellation at the end does.
    rw [World.resultFor_of_not_returned (r := .panicked) (by simp)]
    refine ⟨.cancelled, rfl, ?_⟩
    unfold conclude cancelBy settleBy
    cases cell.outcome <;> simp [grants, RunEnd.outcome?]

namespace World

/-- The outcomes of the children are what the history decided first. -/
structure Judged (w : World V) : Prop where
  outcome : ∀ child ∈ w.children,
    w.outcomeOf child.cell = w.history.findSome? fun p => p.2.verdict? child.cell child.work
  within : ∀ p ∈ w.history, ∀ c, p.2.cell? = some c → c < w.cells.length

variable {w w' : World V}

namespace Judged

/-- No child comes. -/
theorem step (h : Judged w) (hl : Later w w') {l : List (Instant × Happening V)}
    (children : w'.children.length = w.children.length) (history : w'.history = w.history ++ l)
    (within : ∀ p ∈ l, ∀ c, p.2.cell? = some c → c < w.cells.length)
    (outcome : ∀ child ∈ w.children, w'.outcomeOf child.cell =
      (w.outcomeOf child.cell).or (l.findSome? fun p => p.2.verdict? child.cell child.work)) :
    Judged w' where
  outcome child' hc := by
    obtain ⟨i, hi⟩ := List.mem_iff_getElem?.mp hc
    obtain ⟨child, hi, hr⟩ := hl.children.back children hi
    have hm := List.mem_of_getElem? hi
    rw [hr.cell, hr.work, outcome child hm, h.outcome child hm, history, List.findSome?_append]
  within p hp c hc := by
    rw [history] at hp
    refine Nat.lt_of_lt_of_le ?_ hl.cells.length_le
    exact (List.mem_append.mp hp).elim (fun hp => h.within p hp c hc) fun hp => within p hp c hc

/-- Nothing is decided. -/
theorem same (h : Judged w) (hl : Later w w') {l : List (Instant × Happening V)}
    (children : w'.children.length = w.children.length) (history : w'.history = w.history ++ l)
    (within : ∀ p ∈ l, ∀ c, p.2.cell? = some c → c < w.cells.length)
    (quiet : ∀ p ∈ l, ∀ c work, p.2.verdict? c work = none)
    (outcome : ∀ child ∈ w.children, w'.outcomeOf child.cell = w.outcomeOf child.cell) :
    Judged w' := by
  apply h.step hl children history within
  intro child hc
  rw [outcome child hc, List.findSome?_eq_none_iff.mpr fun p hp => quiet p hp _ _, Option.or_none]

/-- Nothing happens, and nothing is settled. -/
theorem still (h : Judged w) (hl : Later w w')
    (children : w'.children.length = w.children.length) (history : w'.history = w.history)
    (outcome : ∀ c, w'.outcomeOf c = w.outcomeOf c) : Judged w' :=
  h.same (l := []) hl children (by rw [history, List.append_nil]) (by simp) (by simp)
    fun child _ => outcome child.cell

/-- One thing happens, which decides nothing. -/
theorem tell (h : Judged w) (hl : Later w w') {a : Happening V}
    (children : w'.children.length = w.children.length)
    (history : w'.history = w.history ++ [(w.now, a)])
    (within : ∀ c, a.cell? = some c → c < w.cells.length)
    (quiet : ∀ c work, a.verdict? c work = none)
    (outcome : ∀ c, w'.outcomeOf c = w.outcomeOf c) : Judged w' :=
  h.same hl children history (fun p hp => by rw [List.mem_singleton.mp hp]; exact within)
    (fun p hp => by rw [List.mem_singleton.mp hp]; exact quiet) fun child _ => outcome child.cell

/-- A cancellation that is granted decides the outcome. -/
theorem cancel (h : Judged w) {c : Nat} {interrupt : Bool}
    (hg : w.cancellable c interrupt = true) : Judged (w.cancel c interrupt).1 := by
  obtain ⟨cell, hcell, hgr⟩ : ∃ cell, w.cells[c]? = some cell ∧ cell.grants interrupt = true := by
    rw [cancellable_eq] at hg
    cases hc : w.cells[c]? <;> simp_all
  refine h.step (cancel_later w c interrupt) (by rw [(w.cancel_frame c interrupt).2.2.1])
    (cancel_history_of_granted hg) (fun p hp k hk => ?_) fun x _ => ?_
  · rw [List.mem_singleton.mp hp] at hk
    exact Option.some.inj hk ▸ (List.getElem?_eq_some_iff.mp hcell).1
  · rw [List.findSome?_singleton]
    by_cases hxc : x.cell = c
    · have hn : cell.outcome = none := by
        simp only [Cell.grants, Bool.and_eq_true, Option.isNone_iff_eq_none] at hgr
        exact hgr.1
      rw [outcomeOf, outcomeOf, cancel_cells, hxc, List.getElem?_modify_eq, hcell]
      simp [Cell.cancelBy, hgr, hn, Happening.verdict?]
    · rw [Happening.verdict?_of_cell? (h := .cancelled c) fun hk => hxc (Option.some.inj hk).symm,
        Option.or_none]
      exact outcomeOf_modify_of_ne (cancel_cells ..) hxc

/-- A run of a periodic child that succeeded decides nothing. -/
theorem again (h : Judged w) (ho : Owned w) {i : Nat} {child : Child V} (value : Option V)
    (hc : w.children[i]? = some child) (hk : child.work.kind = .periodic)
    (hl : Later w ((w.endRun child.cell).record (.ended child.cell (.returned value)))) :
    Judged ((w.endRun child.cell).record (.ended child.cell (.returned value))) := by
  refine h.step hl rfl rfl (fun p hp c hpc => ?_) fun x hx => ?_
  · rw [List.mem_singleton.mp hp] at hpc
    exact Option.some.inj hpc ▸ ho.cell_lt hc
  · have hn : (Happening.ended child.cell (.returned value)).verdict? x.cell x.work = none := by
      by_cases hxc : child.cell = x.cell
      · obtain rfl := ho.eq_of_cell hc hx hxc.symm
        rw [Happening.verdict?, if_pos rfl, Work.verdict?, if_pos hk]
      · exact if_neg hxc
    rw [List.findSome?_singleton, hn, Option.or_none]
    exact outcomeOf_modify (w := w) (c := child.cell) (g := (·.leave (.returned value))) rfl
      fun _ => rfl

theorem addChild (h : Judged w) (ho : Owned w) (e : Nat) (name : String) (work : Work V)
    (mark : Option Mark) : Judged (w.addChild e name work mark).1 where
  outcome child hc := by
    have hcells : (w.addChild e name work mark).1.cells = w.cells ++ [{ mark := mark }] := rfl
    rcases List.mem_append.mp (show child ∈ w.children ++ [_] from hc) with hc | hc
    · obtain ⟨i, hi⟩ := List.mem_iff_getElem?.mp hc
      rw [outcomeOf, hcells, List.getElem?_append_left (ho.cell_lt hi)]
      exact h.outcome child hc
    · rw [List.mem_singleton.mp hc, outcomeOf, hcells,
        List.getElem?_append_right (Nat.le_refl _), Nat.sub_self]
      refine (List.findSome?_eq_none_iff.mpr fun p hp => ?_).symm
      exact Happening.verdict?_of_cell? (fun hk => Nat.lt_irrefl _ (h.within p hp _ hk)) _
  within p hp c hc :=
    Nat.lt_of_lt_of_le (h.within p hp c hc) (addChild_later w e name work mark).cells.length_le

theorem openBatch (h : Judged w) (ho : Owned w) {e : Nat} (he : e < w.executors.length)
    (name : String) (work : Nat → Body V → Work V) (bodies : List (Body V)) :
    Judged (w.openBatch e name work bodies) := by
  obtain ⟨hb, -, -⟩ := addBatchChildren_induct
    (P := fun w => Judged w ∧ Owned w ∧ e < w.executors.length) ⟨h, ho, he⟩ e name
    (work w.batches.length) 0 bodies fun w' name' body h' =>
      ⟨h'.1.addChild h'.2.1 e name' _ none, h'.2.1.addChild h'.2.2 name' _ none,
        Nat.lt_of_lt_of_le h'.2.2 (addChild_later w' e name' _ none).executors.length_le⟩
  exact ⟨hb.outcome, hb.within⟩

theorem finish (h : Judged w) (ho : Owned w) {i : Nat} {child : Child V} {r : RunEnd V}
    (hc : w.children[i]? = some child) (he : child.hasEnded = false)
    (hk : child.work.kind = .periodic → ∀ value, r ≠ .returned value) :
    Judged (w.finish i child r) := by
  obtain ⟨cell, hcell⟩ : ∃ cell, w.cells[child.cell]? = some cell :=
    ⟨_, List.getElem?_eq_getElem (ho.cell_lt hc)⟩
  have hcells : ∀ p ∈ (w.now, Happening.ended child.cell r) ::
      (if (w.deliver child r).cancellable child.cell true then
        [(w.now, .cancelled child.cell)] else []), p.2.cell? = some child.cell := by
    intro p hp
    rcases List.mem_cons.mp hp with rfl | hp
    · rfl
    · split at hp
      · rw [List.mem_singleton.mp hp]
        rfl
      · cases hp
  refine h.step (finish_later r hc he) ?_ (finish_history r hc) (fun p hp c hpc => ?_) ?_
  · rw [(finish_frame r hc).2.1, List.length_modify]
  · obtain rfl := Option.some.inj ((hcells p hp).symm.trans hpc)
    exact ho.cell_lt hc
  · intro x hx
    by_cases hxc : x.cell = child.cell
    · obtain rfl := ho.eq_of_cell hc hx hxc
      obtain ⟨o, hv, hout⟩ := cell.conclude_outcome hk
      rw [List.findSome?_cons, Happening.verdict?, if_pos rfl, hv, outcomeOf, outcomeOf,
        finish_cells r hc, List.getElem?_modify_eq, hcell]
      exact hout
    · rw [List.findSome?_eq_none_iff.mpr fun p hp => Happening.verdict?_of_cell? (fun hk =>
        hxc (Option.some.inj (hk.symm.trans (hcells p hp)))) _, Option.or_none]
      exact outcomeOf_modify_of_ne (finish_cells r hc) hxc

theorem parkChild (h : Judged w) {i : Nat} {child : Child V} (s : Stage V)
    (hc : w.children[i]? = some child) (he : child.hasEnded = false) :
    Judged (w.parkChild i s) := by
  obtain ⟨-, -, hcells, hchildren, -, -, -, hhistory, -⟩ := parkChild_frame s hc
  refine h.same (l := []) (parkChild_later s hc he) ?_ ?_ (by simp) (by simp)
    fun x _ => ?_
  · rw [hchildren, List.length_modify]
  · rw [hhistory, List.append_nil]
  · rw [outcomeOf, outcomeOf, hcells]

end Judged

end World

open World

variable {f f' : Focus} {w w' : World V}

theorem Op.judged (op : Op f w f' w') (ho : Owned w) (h : Judged w) : Judged w' := by
  have hl := op.later
  cases op with
  | enrol name mark hr hb => exact h.addChild ho _ name _ mark
  | cancel hg => exact h.cancel hg
  | ask he hr => exact h.tell hl rfl rfl (by simp [Happening.cell?]) (fun _ _ => rfl) fun _ => rfl
  | drain hr =>
    refine h.same hl rfl (List.append_assoc ..) (fun p hp => ?_) (fun p hp => ?_) fun _ _ => rfl
    · rcases List.mem_cons.mp hp with rfl | hp
      · simp [Happening.cell?]
      · simp [List.mem_singleton.mp hp, Happening.cell?]
    · rcases List.mem_cons.mp hp with rfl | hp
      · exact fun _ _ => rfl
      · exact List.mem_singleton.mp hp ▸ fun _ _ => rfl
  | close hx h0 | terminate hd =>
    exact h.tell hl rfl rfl (by simp [Happening.cell?]) (fun _ _ => rfl) fun _ => rfl
  | @start _ i child hc he hm hs' hr hd =>
    refine h.tell hl ?_ (begin_history w i child) (fun c hk => ?_) (fun _ _ => rfl) fun c => ?_
    · exact (congrArg List.length (countRun_children w i child)).trans (List.length_modify ..)
    · exact Option.some.inj hk ▸ ho.cell_lt hc
    · refine outcomeOf_modify (c := child.cell) (g := fun cell => { cell with phase := .running })
        ?_ fun _ => rfl
      exact congrArg (List.modify · _ _) (countRun_cells w i child)
  | poll hc | resume hc he hs' =>
    refine h.tell hl rfl rfl (fun c hk => ?_) (fun _ _ => rfl) fun _ => rfl
    exact Option.some.inj hk ▸ ho.cell_lt hc
  | drop hc he hs | remark next hc hk =>
    exact h.still hl rfl rfl fun c => outcomeOf_modify rfl fun _ => rfl
  | pause rest hc he ho' hp => exact h.parkChild _ hc he
  | again value hc hk => exact h.again ho value hc hk hl
  | sleep hc he hp hs' hk => exact h.parkChild _ hc he
  | yield hc he hp hk => exact h.still hl (List.length_modify ..) rfl fun _ => rfl
  | @finish _ i child r hc he hr hk =>
    have hl₁ := leave_later w child.cell r
    have h₁ := h.still hl₁ rfl rfl fun c =>
      outcomeOf_modify (c := child.cell) (g := (·.leave r)) rfl fun _ => by cases r <;> rfl
    exact h₁.finish (ho.of_later hl₁ rfl (List.length_modify ..) rfl) hc he hk
  | stop hc he hb => exact h.finish ho hc he (by simp)
  | openBatch name hr hw hn =>
    obtain ⟨x, hx, -⟩ := isRunning_iff.mp hr
    exact h.openBatch ho (List.getElem?_eq_some_iff.mp hx).1 name _ _
  | grant count =>
    rw [addCancelledCells_cells] at hl ⊢
    refine h.same (l := []) hl rfl (List.append_nil _).symm (by simp) (by simp)
      fun x hx => ?_
    obtain ⟨k, hk⟩ := List.mem_iff_getElem?.mp hx
    rw [outcomeOf, outcomeOf, List.getElem?_append_left (ho.cell_lt hk)]
  | _ => exact h.still hl rfl rfl fun _ => rfl

theorem Reached.judged (h : Reached f w) : Judged w := by
  refine h.induct (P := fun _ w => Judged w) (fun jumps => ?_) fun hr op hw => op.judged hr.owned hw
  exact ⟨by simp [World.start], by simp [World.start]⟩

end TimedTasks

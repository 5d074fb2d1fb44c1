import TimedTasks.Proofs.Steady
/-!
What a shutdown leaves. A shutdown cancels the children of an executor that are registered: all of
them, or those that its settings stop and that are not in a run. Then none is left that the executor
may run no more and that could still be cancelled.
-/

namespace TimedTasks

variable {V : Type}

/-- A request to cancel is refused once one was granted. -/
theorem Cell.grants_cancelBy (cell : Cell V) {interrupt : Bool} (hg : cell.grants interrupt = true)
    (interrupt' : Bool) : (cell.cancelBy interrupt).grants interrupt' = false := by
  rw [cancelBy, if_pos hg]
  rfl

namespace World

variable {f : Focus} {w : World V}

theorem cancel_settles {c : Nat} (hc : c < w.cells.length) :
    (w.cancel c true).1.isSettled c = true := by
  have hcell := List.getElem?_eq_getElem hc
  rw [isSettled_eq, cancel_cells, List.getElem?_modify_eq, hcell]
  cases ho : w.cells[c].outcome <;> simp [Cell.cancelBy, Cell.grants, ho]

theorem cancelAll_later (w : World V) (cs : List Nat) : Later w (w.cancelAll cs).1 := by
  induction cs generalizing w with
  | nil => exact .refl w
  | cons c cs ih => exact (cancel_later w c true).trans (ih _)

theorem cancelAll_children (w : World V) (cs : List Nat) :
    (w.cancelAll cs).1.children = w.children := by
  induction cs generalizing w with
  | nil => rfl
  | cons c cs ih => exact (ih _).trans (w.cancel_frame c true).2.2.1

theorem cancelAll_settles {cs : List Nat} (hcs : ∀ c ∈ cs, c < w.cells.length) :
    ∀ c ∈ cs, (w.cancelAll cs).1.isSettled c = true := by
  induction cs generalizing w with
  | nil => simp
  | cons k cs ih =>
    have hl := cancel_later w k true
    intro c hc
    rcases List.mem_cons.mp hc with rfl | hc
    · exact (cancelAll_later _ cs).isSettled (cancel_settles (hcs c List.mem_cons_self))
    · exact ih (fun c hc =>
        Nat.lt_of_lt_of_le (hcs c (List.mem_cons_of_mem _ hc)) hl.cells.length_le) c hc

/-- The cells of the children that are registered are theirs, and they have not ended. -/
theorem mem_registeredCells (hr : Reached f w) {e c : Nat} (hc : c ∈ w.registeredCells e) :
    ∃ (i : Nat) (child : Child V), w.children[i]? = some child ∧ child.executor = e ∧
      child.hasEnded = false ∧ child.cell = c := by
  cases hx : w.executors[e]? with
  | none => simp [registeredCells, hx] at hc
  | some x =>
    simp only [registeredCells, hx, Option.map_some, Option.getD_some, List.mem_filterMap,
      Option.map_eq_some_iff] at hc
    obtain ⟨i, hi, child, hchild, rfl⟩ := hc
    obtain ⟨y, hy, he, hn⟩ := ((hr.audited e x hx).registry i).mp hi
    obtain rfl := Option.some.inj (hchild.symm.trans hy)
    exact ⟨i, _, hchild, he, hn, rfl⟩

/-- The cell of a child that has not ended is among those of its executor that are registered. -/
theorem registered_of_child (hr : Reached f w) {e i : Nat} {child : Child V}
    (hc : w.children[i]? = some child) (he : child.executor = e) (hn : child.hasEnded = false) :
    child.cell ∈ w.registeredCells e := by
  have hx := List.getElem?_eq_getElem (he ▸ hr.owned.executor_lt hc)
  have hreg := ((hr.audited e _ hx).registry i).mpr ⟨child, hc, he, hn⟩
  simp only [registeredCells, hx, Option.map_some, Option.getD_some, List.mem_filterMap]
  exact ⟨i, hreg, by simp [hc]⟩

theorem cancellable_of_settled {c : Nat} (hs : w.isSettled c = true) (interrupt : Bool) :
    w.cancellable c interrupt = false := by
  rw [isSettled_eq] at hs
  rw [cancellable_eq]
  cases hc : w.cells[c]? with
  | none => rfl
  | some cell =>
    obtain ⟨o, ho⟩ := Option.isSome_iff_exists.mp (by simpa [hc] using hs)
    simp [Cell.grants, ho]

/-- A task that cannot be cancelled, as it is in a run or settled, cannot after other tasks were. -/
theorem cancel_refuses {c : Nat} {interrupt : Bool} (h : w.cancellable c interrupt = false)
    (k : Nat) (interrupt' : Bool) :
    (w.cancel k interrupt').1.cancellable c interrupt = false := by
  cases hg : w.cancellable k interrupt' with
  | false =>
    rw [cancel_refused hg]
    exact h
  | true =>
    rw [cancellable_eq] at h ⊢
    rw [cancel_cells, List.getElem?_modify]
    cases hc : w.cells[c]? with
    | none => rfl
    | some cell =>
      by_cases hk : k = c
      · subst hk
        rw [cancellable_eq, hc] at hg
        simpa using cell.grants_cancelBy hg interrupt
      · rw [hc] at h
        simpa [hk] using h

/-- A request to cancel is refused once it was granted. -/
theorem cancel_twice (c : Nat) (interrupt : Bool) :
    (w.cancel c interrupt).1.cancellable c interrupt = false := by
  cases hg : w.cancellable c interrupt with
  | false =>
    rw [cancel_refused hg]
    exact hg
  | true =>
    rw [cancellable_eq] at hg ⊢
    rw [cancel_cells, List.getElem?_modify_eq]
    cases hc : w.cells[c]? with
    | none => rfl
    | some cell =>
      rw [hc] at hg
      exact cell.grants_cancelBy hg interrupt

/-! ## One child after the other -/

/-- What a shutdown does about one child. -/
def seeTo (w : World V) (s : Settings) (i : Nat) : World V :=
  match w.children[i]? with
  | none => w
  | some child =>
    if stopsAtShutdown s child.work.kind then
      let (w, granted) := w.cancel child.cell false
      if granted then w.report (.cancelledByPolicy child.id child.work.kind) else w
    else w

theorem applyPolicies_cons (w : World V) (s : Settings) (i : Nat) (is : List Nat) :
    w.applyPolicies s (i :: is) = (w.seeTo s i).applyPolicies s is := by
  rw [applyPolicies, seeTo]
  cases w.children[i]? with
  | none => rfl
  | some child =>
    dsimp only
    split <;> rfl

/-- Either there is no child to be stopped, or a request to cancel it is made. -/
theorem seeTo_cases (w : World V) (s : Settings) (i : Nat) :
    (w.seeTo s i = w ∧
      ∀ child, w.children[i]? = some child → stopsAtShutdown s child.work.kind = false) ∨
    ∃ child notices, w.children[i]? = some child ∧
      w.seeTo s i = { (w.cancel child.cell false).1 with notices := notices } := by
  unfold seeTo
  cases hc : w.children[i]? with
  | none => exact .inl ⟨rfl, by simp⟩
  | some child =>
    dsimp only
    split
    · refine .inr ⟨child, ?_⟩
      split
      · exact ⟨_, rfl, rfl⟩
      · exact ⟨_, rfl, rfl⟩
    · rename_i hs
      refine .inl ⟨rfl, fun x hx => ?_⟩
      obtain rfl := Option.some.inj hx
      exact Bool.eq_false_iff.mpr hs

theorem seeTo_frame (w : World V) (s : Settings) (i : Nat) :
    (w.seeTo s i).children = w.children ∧ (w.seeTo s i).executors = w.executors := by
  rcases w.seeTo_cases s i with ⟨h, -⟩ | ⟨child, notices, -, h⟩
  · simp [h]
  · obtain ⟨-, hexecutors, hchildren, -⟩ := w.cancel_frame child.cell false
    rw [h]
    exact ⟨hchildren, hexecutors⟩

theorem seeTo_refuses {s : Settings} {i c : Nat} (h : w.cancellable c false = false) :
    (w.seeTo s i).cancellable c false = false := by
  rcases w.seeTo_cases s i with ⟨hw, -⟩ | ⟨child, notices, -, hw⟩ <;> rw [hw]
  · exact h
  · exact cancel_refuses h child.cell false

theorem seeTo_stops {s : Settings} {i : Nat} {child : Child V} (hc : w.children[i]? = some child)
    (hs : stopsAtShutdown s child.work.kind = true) :
    (w.seeTo s i).cancellable child.cell false = false := by
  rcases w.seeTo_cases s i with ⟨-, hw⟩ | ⟨other, notices, ho, hw⟩
  · rw [hw child hc] at hs
    cases hs
  · obtain rfl := Option.some.inj (hc.symm.trans ho)
    rw [hw]
    exact cancel_twice child.cell false

theorem applyPolicies_frame (w : World V) (s : Settings) (is : List Nat) :
    (w.applyPolicies s is).children = w.children ∧
    (w.applyPolicies s is).executors = w.executors := by
  induction is generalizing w with
  | nil => exact ⟨rfl, rfl⟩
  | cons i is ih =>
    obtain ⟨hchildren, hexecutors⟩ := w.seeTo_frame s i
    rw [applyPolicies_cons, (ih _).1, (ih _).2]
    exact ⟨hchildren, hexecutors⟩

theorem applyPolicies_refuses {s : Settings} {is : List Nat} {c : Nat}
    (h : w.cancellable c false = false) : (w.applyPolicies s is).cancellable c false = false := by
  induction is generalizing w with
  | nil => exact h
  | cons i is ih =>
    rw [applyPolicies_cons]
    exact ih (seeTo_refuses h)

/-- Of some children those that a shutdown stops cannot be cancelled any more. -/
theorem applyPolicies_stops {s : Settings} {is : List Nat} {i : Nat} (hi : i ∈ is)
    {child : Child V} (hc : w.children[i]? = some child)
    (hs : stopsAtShutdown s child.work.kind = true) :
    (w.applyPolicies s is).cancellable child.cell false = false := by
  induction is generalizing w with
  | nil => cases hi
  | cons k is ih =>
    rw [applyPolicies_cons]
    rcases List.mem_cons.mp hi with rfl | hi
    · exact applyPolicies_refuses (seeTo_stops hc hs)
    · exact ih hi ((w.seeTo_frame s k).1 ▸ hc)

/-! ## All children -/

/-- A shutdown cancels, of the children that are registered, those that it stops and that are not in
a run. -/
theorem applyPolicies_purged {e : Nat} {x : Executor} (hr : Reached f w)
    (hx : w.executors[e]? = some x) : (w.applyPolicies x.settings x.registry).Purged e := by
  obtain ⟨hchildren, hexecutors⟩ := w.applyPolicies_frame x.settings x.registry
  intro child hc he hm
  rw [hchildren] at hc
  obtain ⟨i, hi⟩ := List.mem_iff_getElem?.mp hc
  cases hended : child.hasEnded with
  | true =>
    have hs := hr.endedSettled child hc hended
    exact applyPolicies_refuses (cancellable_of_settled hs _)
  | false =>
    refine applyPolicies_stops (((hr.audited e x hx).registry i).mpr ⟨child, hi, he, hended⟩) hi ?_
    cases hs : stopsAtShutdown x.settings child.work.kind with
    | true => rfl
    | false =>
      rw [mayRun_iff.mpr ⟨x, hexecutors ▸ hx, .inr hs⟩] at hm
      cases hm

theorem cancelAll_purged {e : Nat} (hr : Reached f w) :
    (w.cancelAll (w.registeredCells e)).1.Purged e := by
  intro child hc he _
  rw [cancelAll_children] at hc
  refine cancellable_of_settled ?_ _
  obtain ⟨i, hi⟩ := List.mem_iff_getElem?.mp hc
  cases hended : child.hasEnded with
  | true => exact (cancelAll_later w _).isSettled (hr.endedSettled child hc hended)
  | false =>
    refine cancelAll_settles (fun c hc => ?_) _ ?_
    · obtain ⟨i, child, hi, -, -, rfl⟩ := mem_registeredCells hr hc
      exact hr.owned.cell_lt hi
    · exact registered_of_child hr hi he hended

end World

end TimedTasks

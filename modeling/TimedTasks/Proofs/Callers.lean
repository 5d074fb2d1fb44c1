import Mathlib.Data.List.Basic
import TimedTasks.Proofs.Figures
/-!
The callers of batches. A call that hands in a batch has its own task wait for it: in its first turn
it hands in a child for each body and waits, and in each later turn it looks whether the batch has
come to something or the time is up. What it waits for, and until when, stays as it was. The batch
itself knows which children are its own and how many of them are left.
-/

namespace TimedTasks

open World

variable {V : Type} {f f' : Focus} {w w' : World V} {b j : Nat} {batch : Batch V}

/-! ## The batch -/

/-- The cells of a batch are those of its children. -/
theorem Reached.mem_cells_iff (hr : Reached f w) (hb : w.batches[b]? = some batch)
    {child : Child V} (hc : child ∈ w.children) :
    child.cell ∈ batch.cells ↔ child.work.batch? = some b := by
  rw [(hr.batched.tallied b batch hb).cells, mem_members]
  refine ⟨?_, fun hw => ⟨child, hc, hw, rfl⟩⟩
  rintro ⟨other, ho, hw, hcell⟩
  obtain ⟨i, hi⟩ := List.mem_iff_getElem?.mp hc
  obtain rfl := hr.owned.eq_of_cell hi ho hcell
  exact hw

/-- All children of a batch have ended once none is left. -/
theorem Reached.remaining_eq_zero_iff (hr : Reached f w) (hb : w.batches[b]? = some batch) :
    batch.remaining = 0 ↔
      ∀ child ∈ w.children, child.cell ∈ batch.cells → child.hasEnded = true := by
  rw [(hr.batched.tallied b batch hb).remaining, pending, List.countP_eq_zero]
  apply forall₂_congr
  intro child hc
  rw [hr.mem_cells_iff hb hc]
  cases child.hasEnded <;> simp

/-! ## The caller -/

/-- A waiter that waits goes on to wait for the same until the same time, or ends. -/
theorem Op.waits (op : Op f w f' w') {x : Waiter V} {on : Awaited} {deadline : Option Instant}
    (hx : w.waiters[j]? = some x) (hst : x.stage = .waiting on deadline) :
    ∃ x', w'.waiters[j]? = some x' ∧ (x'.stage = .ended ∨ x'.stage = .waiting on deadline) := by
  have changed : ∀ {k : Nat} {s : WaiterStage}, (k = j → s = .ended ∨ s = .waiting on deadline) →
      w'.waiters = w.waiters.modify k (fun y => { y with stage := s }) →
      ∃ x', w'.waiters[j]? = some x' ∧ (x'.stage = .ended ∨ x'.stage = .waiting on deadline) := by
    intro k s hs h
    by_cases hk : k = j
    · subst hk
      refine ⟨{ x with stage := s }, ?_, hs rfl⟩
      rw [h, List.getElem?_modify_eq, hx]
      rfl
    · refine ⟨x, ?_, .inr hst⟩
      rw [h, List.getElem?_modify_ne _ _ hk, hx]
  rcases op.waiters_cases with h | ⟨y, -, h⟩ | ⟨k, h⟩ | ⟨k, y, on', deadline', -, hy, hlooks, h⟩
  · exact ⟨x, h ▸ hx, .inr hst⟩
  · exact ⟨x, h ▸ getElem?_concat_iff.mpr (.inl hx), .inr hst⟩
  · exact changed (fun _ => .inl rfl) h
  · refine changed (fun hk => .inr ?_) h
    subst hk
    obtain rfl := Option.some.inj (hx.symm.trans hy)
    -- A waiter that waits looks for the same as before.
    rcases hlooks with hnew | hsame
    · rw [hst] at hnew
      cases hnew
    · exact hsame.symm.trans hst

theorem Ops.waits (ops : Ops f w f' w') (hr : Reached f w) {x : Waiter V} {on : Awaited}
    {deadline : Option Instant} (hx : w.waiters[j]? = some x)
    (hst : x.stage = .waiting on deadline) :
    ∃ x', w'.waiters[j]? = some x' ∧ x'.name = x.name ∧ x'.request = x.request ∧
      (x'.stage = .ended ∨ x'.stage = .waiting on deadline) := by
  have hstage : ∃ x', w'.waiters[j]? = some x' ∧
      (x'.stage = .ended ∨ x'.stage = .waiting on deadline) := by
    refine ops.induct hr (P := fun _ w' => ∃ x', w'.waiters[j]? = some x' ∧
      (x'.stage = .ended ∨ x'.stage = .waiting on deadline)) ⟨x, hx, .inr hst⟩ ?_
    rintro _ _ _ _ - op ⟨y, hy, hs | hs⟩
    · obtain ⟨y', hy', hl⟩ := op.later.waiters j y hy
      exact ⟨y', hy', .inl (hl.hasEnded hs)⟩
    · exact op.waits hy hs
  obtain ⟨x', hx', hs⟩ := hstage
  obtain ⟨y, hy, hl⟩ := ops.later.waiters j x hx
  obtain rfl := Option.some.inj (hx'.symm.trans hy)
  exact ⟨_, hx', hl.name, hl.request, hs⟩

namespace World

/-! ## The first turn -/

section FirstTurn

variable {x : Waiter V} {e : Nat} {bodies : List (Body V)} {bound : Option Duration}

theorem bound_pending {d : Duration} {t now : Instant} (hz : isZeroBound (some d) = false)
    (ht : Instant.after? now d = some t) : now < t := by
  rw [Instant.after?_eq_some ht]
  have hd : d.nanos ≠ 0 := by simpa [isZeroBound, Duration.isZero] using hz
  exact Nat.lt_add_of_pos_right (Nat.pos_of_ne_zero hd)

/-- A batch that comes in has not come to anything when its caller first looks. -/
theorem startBatch_waits {work : Nat → Body V → Work V} {deadline : Option Instant}
    (hz : isZeroBound bound = false) (hd : deadline = bound.bind (Instant.after? w.now)) :
    w.startBatch j x e work bodies bound =
      ((w.openBatch e x.name work bodies).modifyWaiter j fun y =>
        { y with stage := .waiting (.batch w.batches.length) deadline }).suspend (.waiter j) := by
  have hnow : (w.openBatch e x.name work bodies).now = w.now :=
    congrArg (·.elapsed.nanos) (openBatch_frame w e x.name work bodies).2.2.2.1
  have hcome : (w.openBatch e x.name work bodies).hasCome (.batch w.batches.length) = false := by
    rw [hasCome, openBatch_batches, List.getElem?_append_right (Nat.le_refl _), Nat.sub_self]
    rfl
  -- Neither has the batch come to anything nor, with a bound above zero, is its time up.
  unfold startBatch checkWaiter
  dsimp only
  rw [hcome, hnow, if_neg Bool.false_ne_true, ← hd]
  split
  · rename_i t
    obtain ⟨d, rfl, ht⟩ := Option.bind_eq_some_iff.mp hd.symm
    rw [if_neg (Nat.not_le.mpr (bound_pending hz ht))]
  · rfl

end FirstTurn

/-! ## A later turn -/

/-- Whether the tasks of some cells have all ended. -/
def AllEnded (w : World V) (cells : List Nat) : Prop :=
  ∀ child ∈ w.children, child.cell ∈ cells → child.hasEnded = true

theorem checkWaiter_late {x : Waiter V} {on : Awaited} {t : Instant} (hc : w.hasCome on = false)
    (ht : t ≤ w.now) : w.checkWaiter j x on (some t) = w.conclude j x on false := by
  unfold checkWaiter
  rw [if_neg (by simp [hc])]
  exact if_pos ht

theorem checkWaiter_waits {x : Waiter V} {on : Awaited} {deadline : Option Instant}
    (hc : w.hasCome on = false) (hd : ∀ t, deadline = some t → w.now < t) :
    w.checkWaiter j x on deadline =
      (w.modifyWaiter j fun y => { y with stage := .waiting on deadline }).suspend (.waiter j) := by
  unfold checkWaiter
  rw [if_neg (by simp [hc])]
  cases deadline with
  | none => rfl
  | some t => exact if_neg (Nat.not_le.mpr (hd t rfl))

/-- A caller that goes on to wait is left as it was. -/
theorem waiters_of_waits {x : Waiter V} {on : Awaited} {deadline : Option Instant}
    (hx : w.waiters[j]? = some x) (hst : x.stage = .waiting on deadline) :
    ((w.modifyWaiter j fun y => { y with stage := .waiting on deadline }).suspend
      (.waiter j)).waiters[j]? = some x := by
  show (w.waiters.modify j _)[j]? = _
  rw [List.getElem?_modify_eq, hx, ← hst]
  rfl

/-! ## The answer -/

theorem cancel_log (w : World V) (c : Nat) (interrupt : Bool) :
    (w.cancel c interrupt).1.log = w.log := by
  have hsettle : ∀ (w : World V) (o : Outcome V), (w.settle c o).log = w.log := by
    intro w o
    unfold settle
    split <;> rfl
  have hsignal : ∀ w : World V, (w.signal c).log = w.log := by
    intro w
    unfold signal
    split <;> rfl
  unfold cancel
  split
  · exact (hsignal _).trans (hsettle _ _)
  · rfl

theorem cancelAll_frame (w : World V) (cells : List Nat) :
    (w.cancelAll cells).1.log = w.log ∧ (w.cancelAll cells).1.clock = w.clock ∧
    (w.cancelAll cells).1.waiters = w.waiters := by
  induction cells generalizing w with
  | nil => exact ⟨rfl, rfl, rfl⟩
  | cons c cells ih =>
    obtain ⟨hlog, hclock, hwaiters⟩ := ih (w.cancel c true).1
    have hf := w.cancel_frame c true
    exact ⟨hlog.trans (cancel_log w c true), hclock.trans hf.1, hwaiters.trans hf.2.2.2.1⟩

/-- Of the cells of a batch those that are unsettled become cancelled; no other cell changes. -/
theorem cancelAll_cells (w : World V) (cells : List Nat) (c : Nat) :
    (w.cancelAll cells).1.cells[c]? =
      if c ∈ cells then w.cells[c]?.map (·.cancelBy true) else w.cells[c]? := by
  have twice : ∀ cell : Cell V, (cell.cancelBy true).cancelBy true = cell.cancelBy true := by
    intro cell
    cases ho : cell.outcome <;> simp [Cell.cancelBy, Cell.grants, ho]
  induction cells generalizing w with
  | nil => simp [cancelAll]
  | cons k cells ih =>
    refine (ih (w.cancel k true).1).trans ?_
    rw [cancel_cells]
    by_cases hkc : k = c
    · subst hkc
      rw [List.getElem?_modify_eq, if_pos List.mem_cons_self]
      cases w.cells[k]? with
      | none => simp
      | some cell => simp [twice]
    · rw [List.getElem?_modify_ne _ _ hkc]
      simp [Ne.symm hkc]

/-- What the cancellation of some tasks does to one cell. -/
theorem cancelled_or_kept {cells : List Nat} {c : Nat} (hc : c < w.cells.length)
    (h : w'.cells[c]? = if c ∈ cells then w.cells[c]?.map (·.cancelBy true) else w.cells[c]?) :
    (c ∈ cells → w.isSettled c = false → w'.outcomeOf c = some .cancelled) ∧
    (c ∉ cells ∨ w.isSettled c = true → w'.cells[c]? = w.cells[c]?) := by
  have hcell := List.getElem?_eq_getElem hc
  constructor
  · intro hm hs
    rw [isSettled_eq_false_iff, outcomeOf, hcell] at hs
    have hn : w.cells[c].outcome = none := hs
    rw [if_pos hm, hcell] at h
    simp [outcomeOf, h, Cell.cancelBy, Cell.grants, hn]
  · intro hk
    by_cases hm : c ∈ cells
    · have hs := hk.resolve_left fun hn => hn hm
      rw [isSettled_eq, hcell] at hs
      have hn : w.cells[c].outcome ≠ none := Option.isSome_iff_ne_none.mp hs
      simp [h, hm, hcell, Cell.cancelBy, Cell.grants, hn]
    · simp [h, hm]

/-- The call returns with its answer. -/
theorem finishWaiter_frame {x : Waiter V} (hx : w.waiters[j]? = some x) (a : Answer V) :
    (w.finishWaiter j x.name a).waiters[j]? = some { x with stage := .ended } ∧
    (w.finishWaiter j x.name a).log = w.log ++ [⟨w.now, x.name, .answered a⟩] ∧
    (w.finishWaiter j x.name a).cells = w.cells ∧
    (w.finishWaiter j x.name a).futureNames = w.futureNames := by
  refine ⟨?_, rfl, rfl, rfl⟩
  show (w.waiters.modify j _)[j]? = _
  rw [List.getElem?_modify_eq, hx]
  rfl

/-- The children of a call, as they are when its first turn is over. -/
theorem openBatch_new (w : World V) (e : Nat) (name : String)
    (work : Nat → Body V → Work V) (bodies : List (Body V)) :
    ∃ new : List (Child V), (w.openBatch e name work bodies).children = w.children ++ new ∧
      new.map (·.work) = bodies.map (work w.batches.length) ∧
      (∀ child ∈ new, child.executor = e) ∧
      (w.openBatch e name work bodies).batches =
        w.batches ++ [{ cells := new.map (·.cell), remaining := bodies.length }] := by
  obtain ⟨new, hchildren, hcells, hworks, hnew⟩ :=
    addBatchChildren_children w e name (work w.batches.length) 0 bodies
  refine ⟨new, hchildren, hworks, fun child hc => (hnew child hc).1, ?_⟩
  rw [openBatch_batches, hcells]

/-- What there is once a call has handed in its batch and waits. -/
theorem handed_in {x : Waiter V} {e : Nat} {work : Nat → Body V → Work V} {bodies : List (Body V)}
    {deadline : Option Instant} {n : Notice} (hx : w.waiters[j]? = some x)
    (h : w' = (((w.report n).openBatch e x.name work bodies).modifyWaiter j fun y =>
      { y with stage := .waiting (.batch w.batches.length) deadline }).suspend (.waiter j)) :
    ∃ new : List (Child V), w'.children = w.children ++ new ∧
      new.map (·.work) = bodies.map (work w.batches.length) ∧
      (∀ child ∈ new, child.executor = e ∧ w.cells.length ≤ child.cell) ∧
      w'.history = w.history ∧
      w'.waiters[j]? =
        some { x with stage := .waiting (.batch w.batches.length) deadline } ∧
      w'.batches[w.batches.length]? =
        some { cells := new.map (·.cell), remaining := bodies.length } := by
  obtain ⟨new, hchildren, hcells, hworks, hnew⟩ :=
    addBatchChildren_children (w.report n) e x.name (work w.batches.length) 0 bodies
  obtain ⟨hwaiters, -, -, -, hhistory⟩ := openBatch_frame (w.report n) e x.name work bodies
  have hbatches := openBatch_batches (w.report n) e x.name work bodies
  subst h
  refine ⟨new, hchildren, hworks, fun child hc => ⟨(hnew child hc).1, (hnew child hc).2.2⟩,
    hhistory, ?_, ?_⟩
  · show ((openBatch _ _ _ _ _).waiters.modify j _)[j]? = _
    rw [hwaiters, List.getElem?_modify_eq]
    exact congrArg _ hx
  · show (openBatch _ _ _ _ _).batches[_]? = _
    rw [hbatches, ← hcells]
    exact getElem?_concat_iff.mpr (.inr ⟨rfl, rfl⟩)

/-- One of the children that were handed in for some bodies, as it is later. -/
theorem Later.exists_handed (hl : Later w w') {new old : List (Child V)}
    {bodies : List (Body V)} {work : Body V → Work V} (hchildren : w.children = old ++ new)
    (hworks : new.map (·.work) = bodies.map work) (hne : bodies ≠ []) :
    ∃ body, ∃ child ∈ w'.children, child.work = work body := by
  obtain ⟨body, hbody⟩ := List.exists_mem_of_ne_nil bodies hne
  have hmem : work body ∈ new.map (·.work) := hworks ▸ List.mem_map_of_mem hbody
  obtain ⟨child, hc, hw⟩ := List.mem_map.mp hmem
  obtain ⟨i, hi⟩ := List.mem_iff_getElem?.mp (hchildren ▸ List.mem_append_right old hc)
  obtain ⟨child', hi', hk⟩ := hl.children i child hi
  exact ⟨body, child', List.mem_of_getElem? hi', hk.work.trans hw⟩

end World

/-- When no task is ready, what a waiter waits for has not come, and its time is not up. -/
theorem Reached.waits_on (hr : Reached (.caller none) w) (hready : w.ready = []) {x : Waiter V}
    {on : Awaited} {deadline : Option Instant} (hx : w.waiters[j]? = some x)
    (hst : x.stage = .waiting on deadline) :
    w.hasCome on = false ∧ ∀ t, deadline = some t → w.now < t := by
  obtain ⟨y, on', deadline', hy, hst', hcome, htime⟩ :=
    hr.sleeps hready (live_waiter.mpr ⟨x, hx, by simp [hst]⟩)
  obtain rfl := Option.some.inj (hx.symm.trans hy)
  rw [hst] at hst'
  obtain ⟨rfl, rfl⟩ := WaiterStage.waiting.inj hst'
  exact ⟨hcome, htime⟩

end TimedTasks

import TimedTasks.Proofs.Decision
/-!
Runs under way. A run of a task is under way from the call of its body until it ends, which the
history tells; while the future of the task is unsettled, its cell knows the same. The body of a
task that runs once is never called before a run of it is under way, or the future is settled.
-/

namespace TimedTasks

variable {V : Type}

/-- Whether a run of a task is under way after something, if that tells. -/
def Happening.opens? (c : Nat) : Happening V → Option Bool
  | .called k => if k = c then some true else none
  | .ended k _ => if k = c then some false else none
  | _ => none

theorem Happening.opens?_of_cell? {h : Happening V} {c : Nat} (hc : h.cell? ≠ some c) :
    h.opens? c = none := by
  cases h with
  | called k => exact if_neg fun hk => hc (congrArg some hk)
  | ended k r => exact if_neg fun hk => hc (congrArg some hk)
  | _ => rfl

namespace World

/-- Whether a run of a task is under way: of its calls and ends a call came last. -/
def underWay (w : World V) (c : Nat) : Bool :=
  (w.history.reverse.findSome? fun p => p.2.opens? c).getD false

variable {w w' : World V} {c : Nat} {l : List (Instant × Happening V)}

theorem underWay_append (h : w'.history = w.history ++ l) :
    w'.underWay c = (l.reverse.findSome? fun p => p.2.opens? c).getD (w.underWay c) := by
  unfold underWay
  rw [h, List.reverse_append, List.findSome?_append]
  cases l.reverse.findSome? fun p => p.2.opens? c <;> rfl

theorem underWay_keep (h : w'.history = w.history ++ l) (hl : ∀ p ∈ l, p.2.opens? c = none) :
    w'.underWay c = w.underWay c := by
  rw [underWay_append h, List.findSome?_eq_none_iff.mpr fun p hp => hl p (List.mem_reverse.mp hp)]
  rfl

theorem underWay_single {t : Instant} {h : Happening V} (hw : w'.history = w.history ++ [(t, h)]) :
    w'.underWay c = (h.opens? c).getD (w.underWay c) := by
  rw [underWay_append hw, List.reverse_singleton, List.findSome?_singleton]

theorem underWay_congr (h : w'.history = w.history) : w'.underWay c = w.underWay c := by
  unfold underWay
  rw [h]

/-- No run of a task that comes in is under way. -/
theorem Judged.underWay_eq_false (h : Judged w) (hc : w.cells.length ≤ c) :
    w.underWay c = false := by
  unfold underWay
  rw [List.findSome?_eq_none_iff.mpr]
  · rfl
  · intro p hp
    refine Happening.opens?_of_cell? fun hk => ?_
    exact absurd (h.within p (List.mem_reverse.mp hp) c hk) (Nat.not_lt.mpr hc)

/-! ## The phase of a cell -/

def phaseOf? (w : World V) (c : Nat) : Option Phase := w.cells[c]?.map (·.phase)

/-- While the future of a task is unsettled, its cell knows whether a run is under way. -/
def Phased (w : World V) : Prop :=
  ∀ child ∈ w.children, w.outcomeOf child.cell = none →
    (w.underWay child.cell = true ↔ w.phaseOf? child.cell = some .running)

namespace Phased

/-- What befalls one task, and changes its cell. -/
theorem change (h : Phased w) (hl : Later w w') (children : w'.children.length = w.children.length)
    {g : Cell V → Cell V} (cells : w'.cells = w.cells.modify c g)
    (history : w'.history = w.history ++ l) (own : ∀ p ∈ l, ∀ k, p.2.cell? = some k → k = c)
    (phased : w'.outcomeOf c = none → (w'.underWay c = true ↔ w'.phaseOf? c = some .running)) :
    Phased w' := by
  intro child' hc hn
  obtain ⟨i, hi⟩ := List.mem_iff_getElem?.mp hc
  obtain ⟨child, hi, hr⟩ := hl.children.back children hi
  rw [hr.cell] at hn ⊢
  by_cases hcell : child.cell = c
  · rw [hcell] at hn ⊢
    exact phased hn
  · have hother : w'.cells[child.cell]? = w.cells[child.cell]? := by
      rw [cells, List.getElem?_modify_ne _ _ (Ne.symm hcell)]
    have hway : w'.underWay child.cell = w.underWay child.cell :=
      underWay_keep history fun p hp => Happening.opens?_of_cell? fun hp' =>
        hcell (own p hp _ hp')
    have hphase : w'.phaseOf? child.cell = w.phaseOf? child.cell := by
      rw [phaseOf?, phaseOf?, hother]
    have hout : w'.outcomeOf child.cell = w.outcomeOf child.cell := by
      rw [outcomeOf, outcomeOf, hother]
    rw [hway, hphase]
    exact h child (List.mem_of_getElem? hi) (hout ▸ hn)

/-- Nothing befalls the runs of tasks. -/
theorem same (h : Phased w) (hl : Later w w') (children : w'.children.length = w.children.length)
    (history : w'.history = w.history ++ l) (hown : ∀ p ∈ l, ∀ c, p.2.opens? c = none)
    (outcomes : ∀ c, w'.outcomeOf c = none → w.outcomeOf c = none)
    (phases : ∀ c, w'.outcomeOf c = none → w'.phaseOf? c = w.phaseOf? c) : Phased w' := by
  intro child' hc hn
  obtain ⟨i, hi⟩ := List.mem_iff_getElem?.mp hc
  obtain ⟨child, hi, hr⟩ := hl.children.back children hi
  rw [hr.cell] at hn ⊢
  rw [underWay_keep history fun p hp => hown p hp _, phases _ hn]
  exact h child (List.mem_of_getElem? hi) (outcomes _ hn)

theorem addChild (h : Phased w) (ho : Owned w) (hj : Judged w) (e : Nat) (name : String)
    (work : Work V) (mark : Option Mark) : Phased (w.addChild e name work mark).1 := by
  intro child hc hn
  have hcells : (w.addChild e name work mark).1.cells = w.cells ++ [{ mark := mark }] := rfl
  have hway : (w.addChild e name work mark).1.underWay child.cell = w.underWay child.cell :=
    underWay_congr rfl
  rw [hway]
  rcases List.mem_append.mp (show child ∈ w.children ++ [_] from hc) with hc | hc
  · obtain ⟨i, hi⟩ := List.mem_iff_getElem?.mp hc
    have hlt := ho.cell_lt hi
    rw [outcomeOf, hcells, List.getElem?_append_left hlt] at hn
    rw [phaseOf?, hcells, List.getElem?_append_left hlt]
    exact h child hc hn
  · rw [List.mem_singleton.mp hc, hj.underWay_eq_false (Nat.le_refl _), phaseOf?, hcells,
      List.getElem?_append_right (Nat.le_refl _), Nat.sub_self]
    simp

theorem openBatch (h : Phased w) (ho : Owned w) (hj : Judged w) {e : Nat}
    (he : e < w.executors.length) (name : String) (work : Nat → Body V → Work V)
    (bodies : List (Body V)) : Phased (w.openBatch e name work bodies) := by
  obtain ⟨hb, -, -, -⟩ := addBatchChildren_induct
    (P := fun w => Phased w ∧ Judged w ∧ Owned w ∧ e < w.executors.length) ⟨h, hj, ho, he⟩ e name
    (work w.batches.length) 0 bodies fun w' name' body h' =>
      ⟨h'.1.addChild h'.2.2.1 h'.2.1 e name' _ none, h'.2.1.addChild h'.2.2.1 e name' _ none,
        h'.2.2.1.addChild h'.2.2.2 name' _ none,
        Nat.lt_of_lt_of_le h'.2.2.2 (addChild_later w' e name' _ none).executors.length_le⟩
  exact hb

theorem addCancelledCells (h : Phased w) (ho : Owned w) (count : Nat) :
    Phased (w.addCancelledCells count).1 := by
  have hw := addCancelledCells_cells w count
  intro child hc hn
  rw [hw] at hc
  obtain ⟨k, hk⟩ := List.mem_iff_getElem?.mp hc
  have hlt := ho.cell_lt (show w.children[k]? = some child from hk)
  have hcell : (w.addCancelledCells count).1.cells[child.cell]? = w.cells[child.cell]? := by
    rw [hw]
    exact List.getElem?_append_left hlt
  rw [outcomeOf, hcell] at hn
  rw [underWay_congr (w := w) (by rw [hw]), phaseOf?, hcell]
  exact h child hc hn

/-- What befalls one task leaves it settled. -/
theorem settled (h : Phased w) (hl : Later w w') (children : w'.children.length = w.children.length)
    {g : Cell V → Cell V} (cells : w'.cells = w.cells.modify c g)
    (history : w'.history = w.history ++ l) (own : ∀ p ∈ l, ∀ k, p.2.cell? = some k → k = c)
    (hs : w'.isSettled c = true) : Phased w' := by
  refine h.change hl children cells history own fun hn => ?_
  rw [isSettled_eq_false_iff.mpr hn] at hs
  cases hs

theorem cancel (h : Phased w) {interrupt : Bool} (hg : w.cancellable c interrupt = true) :
    Phased (w.cancel c interrupt).1 := by
  refine h.settled (cancel_later w c interrupt) (by rw [(cancel_frame ..).2.2.1])
    (cancel_cells ..) (cancel_history ..) (fun p hp k hk => ?_) ?_
  · rw [if_pos hg] at hp
    rw [List.mem_singleton.mp hp] at hk
    exact (Option.some.inj hk).symm
  · rw [cancellable_eq] at hg
    rw [isSettled_eq, cancel_cells, List.getElem?_modify_eq]
    cases hc : w.cells[c]? with
    | none => simp [hc] at hg
    | some cell =>
      rw [hc] at hg
      have hgr : cell.grants interrupt = true := hg
      simp [Cell.cancelBy, hgr]

section Child

variable {i : Nat} {child : Child V}

/-- A child that ends is settled. -/
theorem finish (h : Phased w) (ho : Owned w) (r : RunEnd V) (hc : w.children[i]? = some child)
    (he : child.hasEnded = false) : Phased (w.finish i child r) := by
  obtain ⟨l, hl, -, hends⟩ := World.finish_adds r hc
  refine h.settled (finish_later r hc he) ?_ (finish_cells r hc) hl (fun p hp c hpc => ?_)
    (finish_isSettled r hc (ho.cell_lt hc))
  · rw [(finish_frame r hc).2.1, List.length_modify]
  · rcases hends p hp with hp | hp <;> rw [hp] at hpc <;> exact (Option.some.inj hpc).symm

/-- So it is if its last run has just ended. -/
theorem leave (h : Phased w) (ho : Owned w) (r : RunEnd V) (hc : w.children[i]? = some child)
    (hl : Later w ((w.modifyCell child.cell (·.leave r)).finish i child r)) :
    Phased ((w.modifyCell child.cell (·.leave r)).finish i child r) := by
  have ho₁ : Owned (w.modifyCell child.cell (·.leave r)) :=
    ho.of_later (leave_later w child.cell r) rfl (List.length_modify ..) rfl
  obtain ⟨l, hh, -, hends⟩ := World.finish_adds (w := w.modifyCell child.cell (·.leave r)) r hc
  have hcells := finish_cells (w := w.modifyCell child.cell (·.leave r)) r hc
  simp only [modifyCell, List.modify_modify_eq] at hcells
  refine h.settled hl ?_ hcells hh (fun p hp c hpc => ?_)
    (finish_isSettled r hc (ho₁.cell_lt hc))
  · exact (congrArg List.length (finish_frame (w := w.modifyCell _ _) r hc).2.1).trans
      (List.length_modify ..)
  · rcases hends p hp with hp | hp <;> rw [hp] at hpc <;> exact (Option.some.inj hpc).symm

/-- The body of a task that was signalled is dropped, and the task is settled already. -/
theorem drop (h : Phased w) (ho : Owned w) {body : Option Nat} (ht : Tended body w)
    (hc : w.children[i]? = some child) (hs : w.isSignalled child.cell = true) :
    Phased (w.endRun child.cell) := by
  refine h.settled (l := []) (endRun_later w child.cell) rfl rfl
    (by simp [endRun, modifyCell]) (by simp) ?_
  obtain ⟨cell, hcell⟩ : ∃ cell, w.cells[child.cell]? = some cell :=
    ⟨_, List.getElem?_eq_getElem (ho.cell_lt hc)⟩
  rw [isSignalled, hcell] at hs
  rw [isSettled_eq, endRun, modifyCell, List.getElem?_modify_eq, hcell]
  exact (ht.sane hcell).token hs

/-- A run begins. -/
theorem start (h : Phased w) (ho : Owned w) (hc : w.children[i]? = some child)
    (hl : Later w (((w.countRun i child).beginRun child.cell).record (.called child.cell))) :
    Phased (((w.countRun i child).beginRun child.cell).record (.called child.cell)) := by
  have hh := begin_history w i child
  have hcell := List.getElem?_eq_getElem (ho.cell_lt hc)
  refine h.change hl ?_ (congrArg (List.modify · _ _) (countRun_cells w i child)) hh
    (fun p hp k hk => ?_) fun _ => ?_
  · exact (congrArg List.length (countRun_children w i child)).trans (List.length_modify ..)
  · rw [List.mem_singleton.mp hp] at hk
    exact (Option.some.inj hk).symm
  · have hphase : (((w.countRun i child).beginRun child.cell).record
        (.called child.cell)).phaseOf? child.cell = some .running := by
      show Option.map _ ((w.countRun i child).cells.modify child.cell _)[child.cell]? = _
      rw [countRun_cells, List.getElem?_modify_eq, hcell]
      rfl
    rw [underWay_single hh, hphase]
    simp [Happening.opens?]

/-- A run ends, and another one may follow. -/
theorem again (h : Phased w) (ho : Owned w) (value : Option V) (hc : w.children[i]? = some child)
    (hl : Later w ((w.endRun child.cell).record (.ended child.cell (.returned value)))) :
    Phased ((w.endRun child.cell).record (.ended child.cell (.returned value))) := by
  obtain ⟨cell, hcell⟩ : ∃ cell, w.cells[child.cell]? = some cell :=
    ⟨_, List.getElem?_eq_getElem (ho.cell_lt hc)⟩
  refine h.change (c := child.cell) hl rfl rfl rfl (fun p hp k hk => ?_) fun _ => ?_
  · rw [List.mem_singleton.mp hp] at hk
    exact (Option.some.inj hk).symm
  · rw [underWay_single (h := .ended child.cell (.returned value)) rfl]
    have hrests : ((w.endRun child.cell).record
        (.ended child.cell (.returned value))).phaseOf? child.cell ≠ some .running := by
      show Option.map _ (w.cells.modify child.cell _)[child.cell]? ≠ _
      rw [List.getElem?_modify_eq, hcell]
      by_cases hp : cell.phase = .running <;> simp [hp]
    simp [Happening.opens?, hrests]

/-- A due time is set, which nothing here depends on. -/
theorem remark (h : Phased w) (c : Nat) (next : Instant)
    (hl : Later w (w.modifyCell c fun cell =>
      { cell with mark := cell.mark.map fun m => .ofInstant m.origin next })) :
    Phased (w.modifyCell c fun cell =>
      { cell with mark := cell.mark.map fun m => .ofInstant m.origin next }) := by
  refine h.same (l := []) hl rfl (List.append_nil _).symm (by simp) (fun k hn => ?_) fun k _ => ?_
  · refine Eq.trans (Eq.symm ?_) hn
    exact outcomeOf_modify (c := c) rfl fun _ => rfl
  · show Option.map _ (w.cells.modify c _)[k]? = Option.map _ _
    rw [List.getElem?_modify]
    cases w.cells[k]? with
    | none => rfl
    | some cell => by_cases hk : c = k <;> simp [hk]

end Child

end Phased

end World

open World

variable {f f' : Focus} {w w' : World V}

theorem Op.phased (op : Op f w f' w') (ho : Owned w) (ht : Tended f.body? w) (hj : Judged w)
    (h : Phased w) : Phased w' := by
  have hl := op.later
  have tells : ∀ {l : List (Instant × Happening V)}, w'.children.length = w.children.length →
      w'.history = w.history ++ l → (∀ p ∈ l, ∀ c, p.2.opens? c = none) → w'.cells = w.cells →
      Phased w' := by
    intro l hchildren hhistory hquiet hcells
    refine h.same hl hchildren hhistory hquiet (fun c hn => ?_) fun c _ => ?_
    · rwa [outcomeOf, hcells] at hn
    · rw [phaseOf?, phaseOf?, hcells]
  have still : w'.children.length = w.children.length → w'.history = w.history →
      w'.cells = w.cells → Phased w' := fun hchildren hhistory =>
    tells (l := []) hchildren (by simp [hhistory]) (by simp)
  have parks : ∀ {i : Nat} {child : Child V} (s : Stage V), w.children[i]? = some child →
      w' = w.parkChild i s → Phased w' := by
    rintro i child s hc rfl
    obtain ⟨-, -, hcells, hchildren, -, -, -, hhistory, -⟩ := parkChild_frame s hc
    exact still (by rw [hchildren, List.length_modify]) hhistory hcells
  cases op with
  | enrol name mark hr hb => exact h.addChild ho hj _ name _ mark
  | cancel hg => exact h.cancel hg
  | @ask _ _ e he hr => exact tells (l := [(_, .asked e)]) rfl rfl (by simp [Happening.opens?]) rfl
  | @drain _ _ e hr =>
    exact tells (l := [(_, .asked e), (_, .draining e)]) rfl (List.append_assoc ..)
      (by simp [Happening.opens?]) rfl
  | @close _ _ e x hx h0 =>
    exact tells (l := [(_, .terminated e)]) rfl rfl (by simp [Happening.opens?]) rfl
  | start hc he hm hs hr hd => exact h.start ho hc hl
  | @poll _ i child hc =>
    exact tells (l := [(_, .polled child.cell)]) rfl rfl (by simp [Happening.opens?]) rfl
  | @resume _ i child on rest hc he hs =>
    exact tells (l := [(_, .polled child.cell)]) rfl rfl (by simp [Happening.opens?]) rfl
  | drop hc he hs => exact h.drop ho ht hc hs
  | pause rest hc he hw hp => exact parks _ hc rfl
  | again value hc hk => exact h.again ho value hc hl
  | remark next hc hk => exact h.remark _ next hl
  | sleep hc he hp hs hk => exact parks _ hc rfl
  | yield hc he hp hk => exact still (List.length_modify ..) rfl rfl
  | finish hc he hr hk => exact h.leave ho _ hc hl
  | stop hc he hb => exact h.finish ho _ hc he
  | openBatch name hr hw hn =>
    obtain ⟨x, hx, -⟩ := isRunning_iff.mp hr
    exact h.openBatch ho hj (List.getElem?_eq_some_iff.mp hx).1 name _ _
  | grant count => exact h.addCancelledCells ho count
  | @terminate _ e hd =>
    exact tells (l := [(_, .terminated e)]) rfl rfl (by simp [Happening.opens?]) rfl
  | _ => exact still rfl rfl rfl

theorem Reached.phased (h : Reached f w) : Phased w := by
  refine h.induct (P := fun _ w => Phased w) (fun jumps => by simp [Phased, World.start])
    fun hr op hw => op.phased hr.owned hr.tended hr.judged hw

end TimedTasks

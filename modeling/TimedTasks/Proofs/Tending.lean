import TimedTasks.Proofs.Ownership
/-!
Cells and their children. The cell of a child that has ended is settled; a child whose cell is
settled ahead of its end has been told so; and a run is under way only while its body is suspended
or goes on.
-/

namespace TimedTasks

variable {V : Type}

/-- A cell is closed, and its task told, by a cancellation that settles it. -/
structure Cell.Sane (cell : Cell V) : Prop where
  token : cell.token = true → cell.outcome.isSome = true
  closed : cell.phase = .closed → cell.outcome.isSome = true

namespace Cell.Sane

variable {cell : Cell V}

theorem of_fresh (ht : cell.token = false) (hp : cell.phase = .idle) : cell.Sane :=
  ⟨fun h => by simp [ht] at h, fun h => by simp [hp] at h⟩

theorem settleBy (h : cell.Sane) (o : Option (Outcome V)) : (cell.settleBy o).Sane := by
  refine ⟨fun ht => ?_, fun hp => ?_⟩
  · simp [Cell.settleBy, h.token ht]
  · simp [Cell.settleBy, h.closed hp]

theorem cancelBy (h : cell.Sane) (interrupt : Bool) : (cell.cancelBy interrupt).Sane := by
  unfold Cell.cancelBy
  split
  · exact ⟨fun _ => rfl, fun _ => rfl⟩
  · exact h

theorem leave (h : cell.Sane) (r : RunEnd V) : (cell.leave r).Sane := by
  cases r with
  | panicked => exact h
  | _ =>
    refine ⟨h.token, fun hp => ?_⟩
    by_cases hr : cell.phase = .running
    · simp [Cell.leave, hr] at hp
    · exact h.closed (by simpa [Cell.leave, hr] using hp)

end Cell.Sane

/-- The cell of a task whose last run has ended is settled. -/
theorem Cell.conclude_isSome (cell : Cell V) (r : RunEnd V) :
    (cell.conclude r).outcome.isSome = true := by
  unfold Cell.conclude Cell.cancelBy
  split
  · rfl
  · rename_i hg
    simpa [Cell.grants, Option.isSome_iff_ne_none] using hg

theorem Cell.leave_phase_ne {cell : Cell V} {r : RunEnd V} (hr : r ≠ .panicked) :
    (cell.leave r).phase ≠ .running := by
  cases r with
  | panicked => exact absurd rfl hr
  | _ =>
    simp only [Cell.leave]
    split
    · exact Phase.noConfusion
    · assumption

/-- What holds of a child and its cell while a body goes on, that of child `body` if any. -/
structure Child.Tends (body : Option Nat) (i : Nat) (child : Child V) (cell : Cell V) : Prop where
  settled : child.hasEnded = true → cell.outcome.isSome = true
  signalled : child.hasEnded = false → cell.outcome.isSome = true → cell.token = true
  running : child.hasEnded = false → cell.phase = .running →
    (∃ on rest, child.stage = .suspended on rest) ∨ body = some i
  suits : child.stage.Suits child.work

theorem Child.Tends.of_fresh {body : Option Nat} {i : Nat} {child : Child V} {cell : Cell V}
    (hs : child.stage = .created) (ho : cell.outcome = none) (hp : cell.phase = .idle) :
    child.Tends body i cell :=
  ⟨fun h => by simp [Child.hasEnded, hs] at h, fun _ h => by simp [ho] at h,
    fun _ h => by simp [hp] at h, by rw [hs]; trivial⟩

namespace World

structure Tended (body : Option Nat) (w : World V) : Prop where
  sane : ∀ {c : Nat} {cell : Cell V}, w.cells[c]? = some cell → cell.Sane
  tends : ∀ {i : Nat} {child : Child V} {cell : Cell V}, w.children[i]? = some child →
    w.cells[child.cell]? = some cell → child.Tends body i cell
  acting : ∀ {i : Nat}, body = some i →
    ∃ child, w.children[i]? = some child ∧ child.hasEnded = false

variable {body body' : Option Nat} {w w' : World V}

namespace Tended

/-- A change to one child and its cell, after which another body may go on. -/
theorem change (h : Tended body w) (ho : Owned w) {k : Nat} {child : Child V}
    (hk : w.children[k]? = some child) {g : Cell V → Cell V} {s : Child V → Child V}
    (cells : w'.cells = w.cells.modify child.cell g)
    (children : w'.children = w.children.modify k s) (hs : ∀ x, (s x).cell = x.cell)
    (sane : ∀ cell, cell.Sane → (g cell).Sane)
    (tends : ∀ cell, w.cells[child.cell]? = some cell → child.Tends body k cell →
      (s child).Tends body' k (g cell))
    (others : ∀ i, body = some i → i = k ∨ body' = some i)
    (acting : ∀ i, body' = some i → i = k ∧ (s child).hasEnded = false ∨ i ≠ k ∧ body = some i) :
    Tended body' w' where
  sane hc := by
    rw [cells] at hc
    obtain ⟨cell, hc', ⟨-, rfl⟩ | ⟨-, rfl⟩⟩ := exists_getElem?_of_modify hc
    · exact sane cell (h.sane hc')
    · exact h.sane hc'
  tends {i x' cell'} hi hc := by
    rw [children] at hi
    rw [cells] at hc
    obtain ⟨x, hi', ⟨rfl, rfl⟩ | ⟨hne, rfl⟩⟩ := exists_getElem?_of_modify hi
    · obtain rfl := Option.some.inj (hk.symm.trans hi')
      obtain ⟨cell, hc', ⟨-, rfl⟩ | ⟨hcc, -⟩⟩ := exists_getElem?_of_modify hc
      · exact tends cell (hs _ ▸ hc') (h.tends hi' (hs _ ▸ hc'))
      · exact absurd (hs _).symm hcc
    · -- No two children have one cell, so the cell of this one is as it was.
      obtain ⟨cell, hc', ⟨hcc, -⟩ | ⟨-, rfl⟩⟩ := exists_getElem?_of_modify hc
      · exact absurd (ho.apart hk hi' hcc) hne
      · have ht := h.tends hi' hc'
        refine ⟨ht.settled, ht.signalled, fun he hp => ?_, ht.suits⟩
        exact (ht.running he hp).imp id fun hb => (others i hb).resolve_left (Ne.symm hne)
  acting {i} hb := by
    rw [children]
    rcases acting i hb with ⟨rfl, he⟩ | ⟨hne, hb⟩
    · exact ⟨s child, by simp [hk], he⟩
    · obtain ⟨x, hx, he⟩ := h.acting hb
      exact ⟨x, by simp [hx, Ne.symm hne], he⟩

theorem addChild (h : Tended body w) (ho : Owned w) (e : Nat) (name : String) (work : Work V)
    (mark : Option Mark) : Tended body (w.addChild e name work mark).1 where
  sane hc := by
    rcases getElem?_concat_iff.mp hc with hc | ⟨-, rfl⟩
    · exact h.sane hc
    · exact .of_fresh rfl rfl
  tends hi hc := by
    rcases getElem?_concat_iff.mp hi with hi | ⟨-, rfl⟩
    · rcases getElem?_concat_iff.mp hc with hc | ⟨hc, -⟩
      · exact h.tends hi hc
      · exact absurd hc (Nat.ne_of_lt (ho.cell_lt hi))
    · rcases getElem?_concat_iff.mp hc with hc | ⟨-, rfl⟩
      · exact absurd (List.getElem?_eq_some_iff.mp hc).1 (Nat.lt_irrefl _)
      · exact .of_fresh rfl rfl rfl
  acting hb := by
    obtain ⟨child, hc, he⟩ := h.acting hb
    exact ⟨child, getElem?_concat_iff.mpr (.inl hc), he⟩

theorem openBatch (h : Tended body w) (ho : Owned w) {e : Nat} (he : e < w.executors.length)
    (name : String) (work : Nat → Body V → Work V) (bodies : List (Body V)) :
    Tended body (w.openBatch e name work bodies) := by
  obtain ⟨hb, -, -⟩ := addBatchChildren_induct
    (P := fun w => Tended body w ∧ Owned w ∧ e < w.executors.length) ⟨h, ho, he⟩ e name
    (work w.batches.length) 0 bodies fun w' name' body h' =>
      ⟨h'.1.addChild h'.2.1 e name' _ none, h'.2.1.addChild h'.2.2 name' _ none,
        Nat.lt_of_lt_of_le h'.2.2 (addChild_later w' e name' _ none).executors.length_le⟩
  exact ⟨hb.sane, hb.tends, hb.acting⟩

theorem addCancelledCells (h : Tended body w) (ho : Owned w) (count : Nat) :
    Tended body (w.addCancelledCells count).1 := by
  rw [addCancelledCells_cells]
  refine ⟨fun {c cell} hc => ?_, fun {i child cell} hi hc => ?_, h.acting⟩
  · rw [List.getElem?_append] at hc
    split at hc
    · exact h.sane hc
    · rw [List.eq_of_mem_replicate (List.mem_of_getElem? hc)]
      exact .of_fresh rfl rfl
  · rw [List.getElem?_append_left (ho.cell_lt hi)] at hc
    exact h.tends hi hc

theorem cancel (h : Tended body w) (c : Nat) (interrupt : Bool) :
    Tended body (w.cancel c interrupt).1 := by
  obtain ⟨-, -, hchildren, -⟩ := w.cancel_frame c interrupt
  refine ⟨fun {k cell'} hk => ?_, fun {i child cell'} hi hk => ?_, ?_⟩
  · rw [cancel_cells] at hk
    obtain ⟨cell, hk', ⟨-, rfl⟩ | ⟨-, rfl⟩⟩ := exists_getElem?_of_modify hk
    · exact (h.sane hk').cancelBy interrupt
    · exact h.sane hk'
  · rw [hchildren] at hi
    rw [cancel_cells] at hk
    obtain ⟨cell, hk', ⟨-, rfl⟩ | ⟨-, rfl⟩⟩ := exists_getElem?_of_modify hk
    · have ht := h.tends hi hk'
      unfold Cell.cancelBy
      split
      · exact ⟨fun _ => rfl, fun _ _ => rfl, fun _ hp => Phase.noConfusion hp, ht.suits⟩
      · exact ht
    · exact h.tends hi hk'
  · rw [hchildren]
    exact h.acting

end Tended

end World

open World

variable {f f' : Focus} {w w' : World V}

theorem Op.tended (op : Op f w f' w') (ho : Owned w) (h : Tended f.body? w) :
    Tended f'.body? w' := by
  cases op with
  | enrol name mark hr hb => exact h.addChild ho _ name _ mark
  | cancel hg => exact h.cancel _ _
  | @start _ i child hc he hm hs hr hd =>
    refine h.change ho hc (g := fun cell => { cell with phase := .running })
      (congrArg (List.modify · _ _) (countRun_cells w i child)) (countRun_children w i child)
      (fun _ => rfl) (fun cell hs => ⟨hs.token, fun hp => by cases hp⟩) (fun cell _ ht => ?_)
      (fun _ hb => by cases hb) fun k hk => .inl ⟨(Option.some.inj hk).symm, he⟩
    exact ⟨ht.settled, ht.signalled, fun _ _ => .inr rfl, ht.suits⟩
  | @resume _ i child on rest hc he hs =>
    refine h.change ho hc (g := id) (s := id) (List.modify_id _ _).symm (List.modify_id _ _).symm
      (fun _ => rfl) (fun _ => id) (fun cell _ ht => ?_) (fun _ hb => by cases hb)
      fun k hk => .inl ⟨(Option.some.inj hk).symm, by simp [Child.hasEnded, he]⟩
    exact ⟨ht.settled, ht.signalled, fun _ _ => .inr rfl, ht.suits⟩
  | drop hc he hs =>
    refine h.change ho hc (g := (·.leave .stopped)) (s := id) rfl (List.modify_id _ _).symm
      (fun _ => rfl) (fun _ hs => hs.leave _) (fun cell _ ht => ?_) (fun _ hb => by cases hb)
      fun _ hb => by cases hb
    exact ⟨ht.settled, ht.signalled, fun _ hp => absurd hp (Cell.leave_phase_ne (by simp)),
      ht.suits⟩
  | @pause _ i child on rest hc he hw hp =>
    obtain ⟨-, -, hcells, hchildren, -⟩ := parkChild_frame (.suspended on rest) hc
    refine h.change ho hc (g := id) (hcells.trans (List.modify_id _ _).symm) hchildren
      (fun _ => rfl) (fun _ => id) (fun cell _ ht => ?_)
      (fun k hk => .inl (Option.some.inj hk).symm) fun _ hb => by cases hb
    exact ⟨fun h => Bool.noConfusion h, fun _ => ht.signalled he, fun _ _ => .inl ⟨on, rest, rfl⟩,
      trivial⟩
  | again value hc hk =>
    refine h.change ho hc (g := (·.leave (.returned value))) (s := id) rfl
      (List.modify_id _ _).symm (fun _ => rfl) (fun _ hs => hs.leave _) (fun cell _ ht => ?_)
      (fun k hk => .inl (Option.some.inj hk).symm) fun _ hb => by cases hb
    exact ⟨ht.settled, ht.signalled, fun _ hp => absurd hp (Cell.leave_phase_ne (by simp)),
      ht.suits⟩
  | remark next hc hk =>
    refine h.change ho hc (s := id) rfl (List.modify_id _ _).symm (fun _ => rfl)
      (fun _ hs => ⟨hs.token, hs.closed⟩) (fun cell _ ht => ?_) (fun _ hb => by cases hb)
      fun _ hb => by cases hb
    exact ⟨ht.settled, ht.signalled, ht.running, ht.suits⟩
  | @sleep _ i child s hc he hp hs hk =>
    obtain ⟨-, -, hcells, hchildren, -⟩ := parkChild_frame s hc
    refine h.change ho hc (g := id) (hcells.trans (List.modify_id _ _).symm) hchildren
      (fun _ => rfl) (fun _ => id) (fun cell hcell ht => ?_) (fun _ hb => by cases hb)
      fun _ hb => by cases hb
    refine ⟨fun h => ?_, fun _ => ht.signalled he, fun _ hr => ?_, hk⟩
    · rcases hs with rfl | ⟨due, rfl, -⟩ <;> cases h
    · exact absurd (by rw [hcell]; exact congrArg some hr) hp
  | yield hc he hp hk =>
    refine h.change ho hc (g := id) (List.modify_id _ _).symm rfl (fun _ => rfl) (fun _ => id)
      (fun cell hcell ht => ?_) (fun _ hb => by cases hb) fun _ hb => by cases hb
    refine ⟨fun h => Bool.noConfusion h, fun _ => ht.signalled he, fun _ hr => ?_, ?_⟩
    · exact absurd (by rw [hcell]; exact congrArg some hr) hp
    · exact Stage.suits_scheduled hk w.now
  | @finish _ i child r hc he hr hk =>
    have hcells := finish_cells (w := w.modifyCell child.cell (·.leave r)) r hc
    rw [modifyCell, List.modify_modify_eq] at hcells
    have hchildren := (finish_frame (w := w.modifyCell child.cell (·.leave r)) r hc).2.1
    refine h.change ho hc hcells hchildren (fun _ => rfl) (fun _ hs => ?_)
      (fun cell _ ht => ?_) (fun k hk => .inl (Option.some.inj hk).symm) fun _ hb => by cases hb
    · exact ((hs.leave r).settleBy _).cancelBy true
    · exact ⟨fun _ => Cell.conclude_isSome _ _, fun h => Bool.noConfusion h,
        fun h => Bool.noConfusion h, trivial⟩
  | stop hc he hb =>
    refine h.change ho hc (finish_cells .stopped hc) (finish_frame .stopped hc).2.1 (fun _ => rfl)
      (fun _ hs => ?_) (fun cell _ ht => ?_) (fun _ hb => by cases hb) fun _ hb => by cases hb
    · exact (hs.settleBy _).cancelBy true
    · exact ⟨fun _ => Cell.conclude_isSome _ _, fun h => Bool.noConfusion h,
        fun h => Bool.noConfusion h, trivial⟩
  | openBatch name hr hw hn =>
    obtain ⟨x, hx, -⟩ := isRunning_iff.mp hr
    exact h.openBatch ho (List.getElem?_eq_some_iff.mp hx).1 name _ _
  | grant count => exact h.addCancelledCells ho count
  | _ => exact ⟨h.sane, h.tends, h.acting⟩

theorem Reached.tended (h : Reached f w) : Tended f.body? w := by
  refine h.induct (P := fun f w => Tended f.body? w) (fun jumps => ?_) fun hr op hw =>
    op.tended hr.owned hw
  exact ⟨fun hc => by simp [World.start] at hc, fun hc => by simp [World.start] at hc,
    fun hb => by cases hb⟩

end TimedTasks

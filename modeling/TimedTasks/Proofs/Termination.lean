import TimedTasks.Proofs.Figures
/-!
The end of an executor. Its state moves on one step at a time and never back; once it has
terminated nothing of its tasks is left to happen; and when no task is ready it has terminated
exactly if a shutdown was asked for and none of its children is under way.
-/

namespace TimedTasks

open World

variable {V : Type} {f f' : Focus} {w w' : World V} {e : Nat} {x : Executor}

/-! ## One step at a time -/

theorem Op.rank_le (op : Op f w f' w') (hr : Reached f w) (e : Nat) :
    w'.rank e ≤ w.rank e + 1 := by
  have stays : (∀ e, w'.rank e = w.rank e) → w'.rank e ≤ w.rank e + 1 := fun h =>
    h e ▸ Nat.le_succ _
  -- Only the executor `k` moves on, which was draining before.
  have ends : ∀ {k : Nat} {g : Executor → Executor} {x : Executor},
      w'.executors = w.executors.modify k g → w.executors[k]? = some x → x.state = .draining →
      w'.rank e ≤ w.rank e + 1 := fun {k g x} hex hx hst => by
    by_cases hke : e = k
    · subst hke
      rw [rank_of_getElem? hx, hst]
      rw [rank_of_getElem? (hex ▸ (List.getElem?_modify_eq ..).trans (congrArg _ hx))]
      exact (g x).state.rank_le_two
    · rw [rank_modify_of_ne hex hke]
      exact Nat.le_succ _
  cases op with
  | create name s => exact stays (rank_addExecutor s)
  | refuse k => exact stays (rank_modify (k := k) rfl fun _ => rfl)
  | enrol name mark hrun hb => exact stays (rank_addChild _ name _ mark)
  | cancel hg => exact stays (rank_congr (cancel_frame ..).2.1)
  | @drain _ _ k hrun =>
    obtain ⟨x, hx, -⟩ := isRunning_iff.mp hrun
    by_cases hke : e = k
    · subst hke
      rw [rank_of_getElem? ((List.getElem?_modify_eq ..).trans (congrArg _ hx))]
      exact Nat.le_add_left _ _
    · exact Nat.le_trans (Nat.le_of_eq (rank_modify_of_ne (k := k) rfl hke)) (Nat.le_succ _)
  | close hx h0 =>
    exact ends (List.modify_modify_eq ..) hx ((hr.steered.steered hx).drains rfl).2
  | @watch _ _ k x hx h0 => exact stays (rank_modify (k := k) rfl fun _ => rfl)
  | @start _ i child hc he hm hs hmay hd => exact stays (rank_congr (countRun_frame w i child).2.1)
  | pause rest hc he ho hp => exact stays (rank_congr (parkChild_frame _ hc).2.1)
  | sleep hc he hp hs hk => exact stays (rank_congr (parkChild_frame _ hc).2.1)
  | @finish _ i child r hc he hend hk =>
    have hex := finish_executors (w := w.modifyCell child.cell (·.leave r)) r hc
    exact stays (rank_modify hex fun _ => rfl)
  | stop hc he hb => exact stays (rank_modify (finish_executors _ hc) fun _ => rfl)
  | openBatch name hrun hw hn => exact stays (rank_openBatch _ _ _ _)
  | grant count =>
    rw [addCancelledCells_cells]
    exact Nat.le_succ _
  | @terminate _ k hd =>
    have hl := hr.placed.known (.watcher k) (List.mem_append_left _ List.mem_cons_self)
    obtain ⟨x, hx, -, hst⟩ := live_watcher.mp (hl.resolve_right (by simp))
    exact ends rfl hx hst
  | _ => exact Nat.le_succ _

/-- From one operation to the next an executor stays in its state or moves on to the next one. -/
theorem Op.moves_on (op : Op f w f' w') (hr : Reached f w) (hx : w.executors[e]? = some x) :
    ∃ x', w'.executors[e]? = some x' ∧ (x'.state = x.state ∨
      x.state = .running ∧ x'.state = .draining ∨
      x.state = .draining ∧ x'.state = .terminated) := by
  obtain ⟨x', hx', hl⟩ := op.later.executors e x hx
  have hle := op.rank_le hr e
  have hge := hl.rank
  rw [rank_of_getElem? hx, rank_of_getElem? hx'] at hle
  refine ⟨x', hx', ?_⟩
  cases hs : x.state <;> cases hs' : x'.state <;> simp_all [Lifecycle.rank]

/-! ## After the end -/

/-- A child that comes in is one of a running executor. -/
theorem Op.newcomer (op : Op f w f' w') {i : Nat} {child : Child V}
    (hc : w'.children[i]? = some child) (hi : w.children.length ≤ i) :
    w.isRunning child.executor = true := by
  have absent : w'.children.length = w.children.length → w.isRunning child.executor = true := by
    intro hl
    have hlt := (List.getElem?_eq_some_iff.mp hc).1
    omega
  have changed : ∀ {k : Nat} {g : Child V → Child V}, w'.children = w.children.modify k g →
      w.isRunning child.executor = true := by
    intro k g hchildren
    apply absent
    rw [hchildren, List.length_modify]
  cases op with
  | enrol name mark hr hb =>
    rcases getElem?_concat_iff.mp hc with hc | ⟨-, rfl⟩
    · exact absurd (List.getElem?_eq_some_iff.mp hc).1 (Nat.not_lt.mpr hi)
    · exact hr
  | @openBatch _ _ e work bodies name hr hw hn =>
    obtain ⟨new, hnew, -, -, hall⟩ :=
      addBatchChildren_children w e name (work w.batches.length) 0 bodies
    have hchildren : (w.openBatch e name work bodies).children = w.children ++ new := hnew
    rw [hchildren, List.getElem?_append_right hi] at hc
    rw [(hall child (List.mem_of_getElem? hc)).1]
    exact hr
  | cancel hg => exact absent (congrArg List.length (cancel_frame ..).2.2.1)
  | @start _ k child hy hn hm hs hr hd =>
    exact changed (countRun_children w k child)
  | pause rest hy hn ho hp | sleep hy hn hp hs hk => exact changed (parkChild_frame _ hy).2.2.2.1
  | yield hy hn hp hk => exact changed rfl
  | @finish _ i child r hy hn hr hk =>
    exact changed (finish_frame (w := w.modifyCell child.cell (·.leave r)) r hy).2.1
  | stop hy hn hb => exact changed (finish_frame _ hy).2.1
  | grant count =>
    apply absent
    rw [addCancelledCells_cells]
  | _ => exact absent rfl

theorem World.Later.isRunning_eq_false (hl : Later w w') (he : e < w.executors.length)
    (hn : w.isRunning e = false) : w'.isRunning e = false := by
  refine Bool.eq_false_iff.mpr fun hrun => Bool.eq_false_iff.mp hn ?_
  obtain ⟨x', hx', hst⟩ := isRunning_iff.mp hrun
  obtain ⟨y, hy, hk⟩ := hl.executors e _ (List.getElem?_eq_getElem he)
  obtain rfl := Option.some.inj (hx'.symm.trans hy)
  refine isRunning_iff.mpr ⟨_, List.getElem?_eq_getElem he, ?_⟩
  have hrank := hk.rank
  rw [hst] at hrank
  cases hs : w.executors[e].state with
  | running => rfl
  | _ => simp [hs, Lifecycle.rank] at hrank

/-- An executor that is not running gets no child. -/
theorem Ops.no_newcomers (ops : Ops f w f' w') (hr : Reached f w) (he : e < w.executors.length)
    (hn : w.isRunning e = false) {i : Nat} {child : Child V} (hc : w'.children[i]? = some child)
    (hce : child.executor = e) : i < w.children.length := by
  refine ops.induct hr (P := fun _ w' => (e < w'.executors.length ∧ w'.isRunning e = false) ∧
    ∀ (i : Nat) (child : Child V), w'.children[i]? = some child → child.executor = e →
      i < w.children.length) ⟨⟨he, hn⟩, fun i _ hc _ => (List.getElem?_eq_some_iff.mp hc).1⟩
    (fun {_ w₁ _ w₂} _ op ⟨⟨he, hn⟩, ih⟩ => ?_) |>.2 i child hc hce
  have hl := op.later
  refine ⟨⟨Nat.lt_of_lt_of_le he hl.executors.length_le, hl.isRunning_eq_false he hn⟩,
    fun i child hc hce => ?_⟩
  by_cases hi : i < w₁.children.length
  · obtain ⟨y, hy, hk⟩ := hl.children i _ (List.getElem?_eq_getElem hi)
    obtain rfl := Option.some.inj (hc.symm.trans hy)
    exact ih i _ (List.getElem?_eq_getElem hi) (hk.executor.symm.trans hce)
  · have hrun := op.newcomer hc (Nat.le_of_not_lt hi)
    rw [hce, hn] at hrun
    cases hrun

/-- Each child of an executor that is not running was there before. -/
theorem Ops.was_there (ops : Ops f w f' w') (hr : Reached f w) (he : e < w.executors.length)
    (hn : w.isRunning e = false) {i : Nat} {child' : Child V} (hc : w'.children[i]? = some child')
    (hce : child'.executor = e) :
    ∃ child, w.children[i]? = some child ∧ child.executor = e ∧ child'.cell = child.cell := by
  have hlt := ops.no_newcomers hr he hn hc hce
  obtain ⟨y, hy, hk⟩ := ops.later.children i _ (List.getElem?_eq_getElem hlt)
  obtain rfl := Option.some.inj (hc.symm.trans hy)
  exact ⟨_, List.getElem?_eq_getElem hlt, hk.executor.symm.trans hce, hk.cell⟩

/-- No child of an executor that has terminated is under way. -/
theorem Reached.unended_of_terminated (hr : Reached f w) (hx : w.executors[e]? = some x)
    (ht : x.state = .terminated) : w.unended e = 0 := by
  rw [← (hr.audited e x hx).tracked]
  exact ((hr.steered.steered hx).terminated ht).2

theorem World.hasEnded_of_unended (h : w.unended e = 0) {child : Child V} (hc : child ∈ w.children)
    (hce : child.executor = e) : child.hasEnded = true := by
  have := List.countP_eq_zero.mp h child hc
  simpa [hce] using this

/-- The tasks of an executor that has terminated are over, and stay so. -/
theorem Reached.silent_of_terminated (hr : Reached f w) (hx : w.executors[e]? = some x)
    (ht : x.state = .terminated) {child : Child V} (hc : child ∈ w.children)
    (hce : child.executor = e) : Silent f w child.cell := by
  have he := hasEnded_of_unended (hr.unended_of_terminated hx ht) hc hce
  refine ⟨hr.endedSettled child hc he, fun i other hi ho hcell => ?_⟩
  -- A child whose body goes on has not ended.
  obtain rfl := hr.owned.eq_of_cell ho hc hcell.symm
  obtain ⟨y, hy, hn⟩ := hr.tended.acting hi
  obtain rfl := Option.some.inj (ho.symm.trans hy)
  exact Bool.noConfusion (he.symm.trans hn)

theorem Reached.no_runs_of_terminated (hr : Reached f w) (hx : w.executors[e]? = some x)
    (ht : x.state = .terminated) (ops : Ops f w f' w') :
    ∃ l, w'.history = w.history ++ l ∧
      ∀ child ∈ w'.children, child.executor = e → ∀ p ∈ l, p.2.isRun child.cell = false := by
  obtain ⟨l, hl⟩ := ops.later.history
  refine ⟨l, hl.symm, fun child' hc' hce => ?_⟩
  have hn : w.isRunning e = false := by
    rw [isRunning, stateOf?, hx]
    exact congrArg (· == some Lifecycle.running) (congrArg some ht)
  obtain ⟨i, hi⟩ := List.mem_iff_getElem?.mp hc'
  obtain ⟨child, hc, hce, hcell⟩ :=
    ops.was_there hr (List.getElem?_eq_some_iff.mp hx).1 hn hi hce
  have hsilent := hr.silent_of_terminated hx ht (List.mem_of_getElem? hc) hce
  obtain ⟨l', hl', hrun⟩ := ops.silent hr hsilent
  obtain rfl := List.append_cancel_left (hl.trans hl')
  rw [hcell]
  exact hrun

/-! ## When no task is ready -/

theorem Reached.asked_iff (hr : Reached f w) (hx : w.executors[e]? = some x) :
    w.history.any (·.2.isAsked e) = true ↔ x.state ≠ .running := by
  rw [(hr.chronicled e).asked, rank_of_getElem? hx, decide_eq_true_iff]
  cases x.state <;> simp [Lifecycle.rank]

/-- An executor that was asked to shut down and has no child under way has terminated, unless its
watcher is about to see to that. -/
theorem Reached.terminated_of_quiet (hr : Reached (.caller none) w) (hq : w.ready = [])
    (hx : w.executors[e]? = some x) (hs : x.state ≠ .running) (hu : w.unended e = 0) :
    x.state = .terminated := by
  have hst := hr.steered.steered hx
  have hclosed : x.closed = true := by
    cases hc : x.closed with
    | true => rfl
    | false => cases hst.leaves hc hs
  cases hstate : x.state with
  | running => exact absurd hstate hs
  | terminated => rfl
  | draining =>
    -- The watcher is alive, so it waits, and what it waits for has not come.
    have hd : w.isDrained e = false :=
      hr.sleeps hq (live_watcher.mpr ⟨x, hx, hclosed, hstate⟩)
    have htracked := (hr.audited e x hx).tracked.trans hu
    simp [isDrained, hx, hclosed, htracked] at hd

/-- The state of an executor moves from running to draining to terminated, and each move is
announced at most once. Once it has terminated, every future that was handed out is settled, no
child is active or registered, and no body of its tasks is made or let go on at any later time.
When no task is ready it has terminated exactly if a shutdown was asked for and no child of it is
under way. -/
theorem Reached.life_and_end (hr : Reached f w) (hx : w.executors[e]? = some x) :
    (∀ (f' : Focus) (w' : World V), Op f w f' w' → ∃ x', w'.executors[e]? = some x' ∧
      (x'.state = x.state ∨ x.state = .running ∧ x'.state = .draining ∨
        x.state = .draining ∧ x'.state = .terminated)) ∧
    (w.history.countP (·.2.isDraining e) ≤ 1 ∧ w.history.countP (·.2.isTerminated e) ≤ 1) ∧
    (x.state = .terminated →
      (∀ child ∈ w.children, child.executor = e → w.isSettled child.cell = true) ∧
      (∀ c < w.cells.length, (∀ child ∈ w.children, child.cell ≠ c) →
        w.outcomeOf c = some .cancelled) ∧
      (w.statsOf e).active = 0 ∧ x.registry = [] ∧
      ∀ (f' : Focus) (w' : World V), Ops f w f' w' → ∃ l, w'.history = w.history ++ l ∧
        ∀ child ∈ w'.children, child.executor = e → ∀ p ∈ l, p.2.isRun child.cell = false) ∧
    (f = .caller none → w.ready = [] →
      (x.state = .terminated ↔ w.history.any (·.2.isAsked e) = true ∧ w.unended e = 0)) := by
  have htold := hr.chronicled e
  refine ⟨fun f' w' op => op.moves_on hr hx, ⟨?_, ?_⟩, fun ht => ?_, ?_⟩
  · rw [htold.draining]
    exact Nat.min_le_right _ _
  · rw [htold.terminated, rank_of_getElem? hx]
    have := x.state.rank_le_two
    omega
  · have hu := hr.unended_of_terminated hx ht
    refine ⟨fun child hc hce => (hr.silent_of_terminated hx ht hc hce).settled, fun c hc hno => ?_,
      (hr.active_eq hx).trans hu, ?_, fun f' w' ops => hr.no_runs_of_terminated hx ht ops⟩
    · refine (hr.owned.unowned c hc).resolve_left ?_
      rintro ⟨i, child, hi, hcell⟩
      exact hno child (List.mem_of_getElem? hi) hcell
    · exact List.eq_nil_of_length_eq_zero ((hr.audited e x hx).unended.trans hu)
  · rintro rfl hq
    rw [hr.asked_iff hx]
    refine ⟨fun ht => ⟨by simp [ht], hr.unended_of_terminated hx ht⟩, fun h => ?_⟩
    obtain ⟨hs, hu⟩ := h
    exact hr.terminated_of_quiet hq hx hs hu

/-- An executor is shut down while one of its tasks waits for ever and another one has not begun. -/
def haltedPool : World Nat :=
  (World.start false).after
    [.call (.create "pool" none none none none),
      .call (.submit "pool" "a" none (.steps [.pending])), .settle,
      .call (.submit "pool" "b" none (.steps [.ok (some 7)])),
      .call (.shutdownNow "pool"), .settle]

theorem life_and_end_haltedPool :
    haltedPool.stateOf? 0 = some .terminated ∧
    (∀ child ∈ haltedPool.children, child.executor = 0 →
      haltedPool.isSettled child.cell = true) ∧
    (haltedPool.history.any (·.2.isAsked 0) = true ∧ haltedPool.unended 0 = 0) := by
  have h := Reached.life_and_end (e := 0) (Reached.after false _ : Reached _ haltedPool) rfl
  exact ⟨by decide, (h.2.2.1 rfl).1, (h.2.2.2 rfl rfl).mp rfl⟩

end TimedTasks

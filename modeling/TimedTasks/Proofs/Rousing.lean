import TimedTasks.Proofs.Cancellation
/-!
No turn is taken in vain. A task that is ready does not wait for anything that is yet to come: it
has just come in, or what it waited for has come and woke it. Only the watcher of an executor takes
a turn before there is something to announce.
-/

namespace TimedTasks

theorem eq_false_of_imp {a b : Bool} (h : a = true → b = true) (hb : b = false) : a = false :=
  Bool.eq_false_iff.mpr fun ha => Bool.noConfusion (hb.symm.trans (h ha))

variable {V : Type}

/-- What a child waits for was yet to come before, if it is now. -/
theorem Stage.slept (s : Stage V) {w w' : World V} (clock : w.now ≤ w'.now)
    (settled : ∀ c, w.isSettled c = true → w'.isSettled c = true) (hs : s.Sleeps w') :
    s.Sleeps w := by
  cases s with
  | scheduled due => exact Nat.lt_of_le_of_lt clock hs
  | suspended on rest =>
    cases on with
    | time t => exact Nat.lt_of_le_of_lt clock hs
    | cell c joined => exact eq_false_of_imp (settled c) hs
    | forever => trivial
  | stranded => trivial
  | created => exact hs
  | ended => exact hs

namespace World

variable {w w' w'' : World V}

theorem Later.stage (h : Later w w') {s : Stage V} (hs : s.Sleeps w') : s.Sleeps w :=
  s.slept h.clock (fun _ => h.isSettled) hs

theorem Later.hasCome (h : Later w w') {on : Awaited} (hc : w.hasCome on = true) :
    w'.hasCome on = true := by
  cases on with
  | cell c => exact h.isSettled hc
  | termination e =>
    obtain ⟨x, hx, hs⟩ := Option.map_eq_some_iff.mp (eq_of_beq hc : w.stateOf? e = some .terminated)
    obtain ⟨y, hy, hl⟩ := h.executors e x hx
    have hrank := hl.rank
    rw [hs] at hrank
    have hy' : w'.stateOf? e = some y.state := by rw [stateOf?, hy]; rfl
    rw [World.hasCome, isTerminated, hy']
    cases hstate : y.state with
    | terminated => rfl
    | _ => rw [hstate] at hrank; exact absurd hrank (by decide)
  | batch b =>
    simp only [World.hasCome] at hc ⊢
    cases hb : w.batches[b]? with
    | none => simp [hb] at hc
    | some x =>
      obtain ⟨y, hy, hl⟩ := h.batches b x hb
      rw [hy]
      exact hl.notified (by simpa [hb] using hc)

/-- What wakes tasks: what has come stays, tasks stay where they are or end, and whoever becomes
ready sleeps no more. -/
structure Rouses (w w' : World V) : Prop where
  clock : w.now ≤ w'.now
  signal : ∀ c, w.isSignalled c = true → w'.isSignalled c = true
  come : ∀ on, w.hasCome on = true → w'.hasCome on = true
  drained : ∀ e, w.isDrained e = true → w'.isDrained e = true
  child : ∀ (i : Nat) (x : Child V), w'.children[i]? = some x →
    w.children[i]? = some x ∨ ¬ x.stage.Sleeps w'
  waiter : ∀ (j : Nat) (x : Waiter V), w'.waiters[j]? = some x →
    w.waiters[j]? = some x ∨ ∀ on deadline, x.stage ≠ .waiting on deadline
  ready : ∀ r ∈ w'.ready, r ∈ w.ready ∨ ¬ w'.Sleeps r

namespace Rouses

theorem refl (w : World V) : Rouses w w :=
  ⟨Nat.le_refl _, fun _ => id, fun _ => id, fun _ => id, fun _ _ => .inl, fun _ _ => .inl,
    fun _ => .inl⟩

/-- What is yet to come was so before. -/
theorem stage (h : Rouses w w') {s : Stage V} (hs : s.Sleeps w') : s.Sleeps w :=
  s.slept h.clock (fun c => h.come (.cell c)) hs

/-- Whoever is awake stays awake. -/
theorem sleeps (h : Rouses w w') {r : TaskRef} (hr : w'.Sleeps r) : w.Sleeps r := by
  cases r with
  | watcher e => exact eq_false_of_imp (h.drained e) hr
  | child i =>
    obtain ⟨x, hx, ht, hs⟩ := hr
    exact ⟨x, (h.child i x hx).resolve_right fun hn => hn hs, eq_false_of_imp (h.signal _) ht,
      h.stage hs⟩
  | waiter j =>
    obtain ⟨x, on, deadline, hx, hst, hc, hd⟩ := hr
    exact ⟨x, on, deadline, (h.waiter j x hx).resolve_right fun hn => hn _ _ hst, hst,
      eq_false_of_imp (h.come on) hc, fun t ht => Nat.lt_of_le_of_lt h.clock (hd t ht)⟩

theorem trans (h : Rouses w w') (h' : Rouses w' w'') : Rouses w w'' where
  clock := Nat.le_trans h.clock h'.clock
  signal c hc := h'.signal c (h.signal c hc)
  come on hc := h'.come on (h.come on hc)
  drained e he := h'.drained e (h.drained e he)
  child i x hx := (h'.child i x hx).elim
    (fun hx => (h.child i x hx).imp id fun hn hs => hn (h'.stage hs)) .inr
  waiter j x hx := (h'.waiter j x hx).elim (h.waiter j x) .inr
  ready r hr := (h'.ready r hr).elim
    (fun hr => (h.ready r hr).imp id fun hn hs => hn (h'.sleeps hs)) .inr

/-- Those are woken who wait for nothing any more. -/
theorem wake (h : Rouses w w') {p : TaskRef → Bool} (hp : ∀ r, p r = true → ¬ w'.Sleeps r) :
    Rouses w (w'.wake p) :=
  { h with
    child := fun i x hx => (h.child i x hx).imp id fun hn hs => hn hs
    ready := fun r hr => by
      rcases List.mem_append.mp hr with hr | hr
      · exact h.ready r hr
      · exact .inr (hp r (List.mem_filter.mp hr).2) }

/-- Nothing that tasks wait for changes, but for what has come. -/
theorem of_same (clock : w'.clock = w.clock)
    (signal : ∀ c, w.isSignalled c = true → w'.isSignalled c = true)
    (come : ∀ on, w.hasCome on = true → w'.hasCome on = true)
    (drained : ∀ e, w.isDrained e = true → w'.isDrained e = true)
    (children : w'.children = w.children) (waiters : w'.waiters = w.waiters)
    (ready : w'.ready = w.ready) : Rouses w w' where
  clock := Nat.le_of_eq (congrArg (·.elapsed.nanos) clock.symm)
  signal := signal
  come := come
  drained := drained
  child _ _ hx := .inl (children ▸ hx)
  waiter _ _ hx := .inl (waiters ▸ hx)
  ready _ hr := .inl (ready ▸ hr)

end Rouses

/-! ## What wakes -/

/-- A task that sleeps and reads a cell finds it unsettled. -/
theorem hasCome_of_sleeps {r : TaskRef} (hs : w.Sleeps r) {c : Nat}
    (hc : w.awaitedCell? r = some c) : w.isSettled c = false := by
  cases r with
  | child i =>
    obtain ⟨x, hx, -, hs⟩ := hs
    simp only [awaitedCell?, stageOf?, hx, Option.map_some] at hc
    split at hc
    · rename_i hst
      obtain rfl := Option.some.inj hc
      rw [Option.some.inj hst] at hs
      exact hs
    · cases hc
  | waiter j =>
    obtain ⟨x, on, deadline, hx, hst, hcome, -⟩ := hs
    simp only [awaitedCell?, waiterStage?, hx, Option.map_some, hst] at hc
    split at hc
    · rename_i hst'
      obtain rfl := Option.some.inj hc
      cases hst'
      exact hcome
    · cases hc
  | watcher e => cases hc

/-- So does a waiter that waits for something else. -/
theorem hasCome_of_awaits {r : TaskRef} (hs : w.Sleeps r) {on : Awaited}
    (ha : w.awaits on r = true) : w.hasCome on = false := by
  cases r with
  | waiter j =>
    obtain ⟨x, on', deadline, hx, hst, hcome, -⟩ := hs
    have hon : on' = on := by simpa [awaits, waiterStage?, hx, hst] using ha
    exact hon ▸ hcome
  | _ => cases ha

/-- A change to a cell that takes nothing back. -/
theorem modifyCell_rouses (w : World V) (c : Nat) {g : Cell V → Cell V}
    (hg : ∀ cell, w.cells[c]? = some cell → Cell.Later cell (g cell)) :
    Rouses w (w.modifyCell c g) := by
  have hl : Later w (w.modifyCell c g) :=
    .of_eq rfl rfl (.modify .refl hg) rfl rfl rfl (List.prefix_refl _)
  exact .of_same rfl (fun _ => hl.isSignalled) (fun _ => hl.hasCome) (fun _ => id) rfl rfl rfl

theorem settle_rouses {c : Nat} (hc : c < w.cells.length) (o : Outcome V) :
    Rouses w (w.settle c o) := by
  unfold settle
  split
  · exact .refl w
  · rename_i hn
    have hset := w.modifyCell_rouses c (g := fun cell => { cell with outcome := some o })
      fun cell hc => by
        have ho : cell.outcome = none := by simpa [isSettled, outcomeOf, hc] using hn
        exact ⟨fun o' ho' => by simp [ho] at ho', id, id⟩
    have hcome :
        (w.modifyCell c fun cell => { cell with outcome := some o }).isSettled c = true := by
      rw [isSettled_eq, modifyCell, List.getElem?_modify_eq, List.getElem?_eq_getElem hc]
      rfl
    refine hset.wake fun r hr hs => ?_
    -- A reader of the cell finds it settled.
    rw [hasCome_of_sleeps hs (eq_of_beq hr)] at hcome
    cases hcome

theorem signal_rouses {c : Nat} (hc : c < w.cells.length) : Rouses w (w.signal c) := by
  unfold signal
  split
  · exact .refl w
  · have hset := w.modifyCell_rouses c (g := fun cell => { cell with token := true })
      fun cell hc => ⟨fun _ => id, fun _ => rfl, id⟩
    have hsignalled :
        (w.modifyCell c fun cell => { cell with token := true }).isSignalled c = true := by
      rw [isSignalled, modifyCell, List.getElem?_modify_eq, List.getElem?_eq_getElem hc]
      rfl
    refine hset.wake fun r hr hs => ?_
    -- The task of the cell is told.
    cases r with
    | child i =>
      obtain ⟨x, hx, ht, -⟩ := hs
      have hcell : x.cell = c := by simpa [ownsCell, hx] using hr
      rw [hcell, hsignalled] at ht
      cases ht
    | _ => cases hr

theorem cancel_rouses (w : World V) (c : Nat) (interrupt : Bool) :
    Rouses w (w.cancel c interrupt).1 := by
  unfold cancel
  split
  · rename_i hg
    have hc : c < w.cells.length := Nat.lt_of_not_le fun hn => by
      simp [cancellable, List.getElem?_eq_none hn] at hg
    have hclosed := w.modifyCell_rouses c (g := fun cell => { cell with phase := .closed })
      fun _ _ => ⟨fun _ => id, id, fun _ => rfl⟩
    have hsettled := hclosed.trans (settle_rouses (by simpa [modifyCell] using hc) .cancelled)
    have hsignalled := hsettled.trans (signal_rouses (c := c) (by
      simpa [settle_cells, modifyCell] using hc))
    exact { hsignalled with }
  · exact .refl w

theorem settleRun_rouses {c : Nat} (hc : c < w.cells.length) (r : RunEnd V) :
    Rouses w (w.settleRun c r) := by
  cases r with
  | panicked => exact .refl w
  | _ => exact settle_rouses hc _

/-- A change to a batch that takes nothing back. -/
theorem modifyBatch_rouses (w : World V) (b : Nat) {g : Batch V → Batch V}
    (hg : ∀ x, w.batches[b]? = some x → Batch.Later x (g x)) : Rouses w (w.modifyBatch b g) := by
  have hl : Later w (w.modifyBatch b g) := ⟨Nat.le_refl _, .refl .refl _, .refl .refl _,
    .refl .refl _, .refl .refl _, .modify .refl hg, List.prefix_refl _⟩
  exact .of_same rfl (fun _ => hl.isSignalled) (fun _ => hl.hasCome) (fun _ => id) rfl rfl rfl

theorem notifyBatch_rouses {b : Nat} (hb : b < w.batches.length) : Rouses w (w.notifyBatch b) := by
  have hset := w.modifyBatch_rouses b (g := fun x => { x with notified := true })
    fun _ _ => ⟨rfl, fun _ => id, fun _ => rfl, Nat.le_refl _⟩
  have hcome :
      (w.modifyBatch b fun x => { x with notified := true }).hasCome (.batch b) = true := by
    simp only [World.hasCome, modifyBatch]
    rw [List.getElem?_modify_eq, List.getElem?_eq_getElem hb]
    rfl
  refine hset.wake fun r hr hs => ?_
  rw [hasCome_of_awaits hs hr] at hcome
  cases hcome

theorem tellBatch_rouses (w : World V) (b : Nat) (r : RunEnd V) : Rouses w (w.tellBatch b r) := by
  cases r with
  | returned value =>
    simp only [tellBatch, offer]
    split
    · rename_i x hx
      split
      · rename_i hw
        have hwon := w.modifyBatch_rouses b (g := fun x => { x with winner := some value })
          fun y hy => by
            obtain rfl := Option.some.inj (hx.symm.trans hy)
            exact ⟨rfl, fun v hv => by simp [hv] at hw, id, Nat.le_refl _⟩
        exact hwon.trans (notifyBatch_rouses (by
          simpa [modifyBatch] using (List.getElem?_eq_some_iff.mp hx).1))
      · exact .refl w
    · exact .refl w
  | failed cause => exact w.modifyBatch_rouses b fun _ _ => ⟨rfl, fun _ => id, id, Nat.le_refl _⟩
  | _ => exact .refl w

theorem countDown_rouses (w : World V) (b : Nat) : Rouses w (w.countDown b) := by
  have hset := w.modifyBatch_rouses b (g := fun x => { x with remaining := x.remaining - 1 })
    fun _ _ => ⟨rfl, fun _ => id, id, Nat.sub_le _ _⟩
  unfold countDown
  dsimp only
  split
  · rename_i x hx
    split
    · exact hset.trans (notifyBatch_rouses (List.getElem?_eq_some_iff.mp hx).1)
    · exact hset
  · exact hset

theorem deliver_rouses {child : Child V} (hc : child.cell < w.cells.length) (r : RunEnd V) :
    Rouses w (w.deliver child r) := by
  have hrec : Rouses w (w.record (.ended child.cell r)) := { Rouses.refl w with }
  have hc : child.cell < (w.record (.ended child.cell r)).cells.length := hc
  unfold deliver
  dsimp only
  split
  · rename_i yield body hw
    obtain ⟨hclock, hexecutors, hcells, hchildren, hwaiters, hbatches, hready, -⟩ :=
      reportUnwanted_frame (w.record (.ended child.cell r)) child yield r
    have hreport : Rouses (w.record (.ended child.cell r))
        ((w.record (.ended child.cell r)).reportUnwanted child yield r) := by
      refine .of_same hclock (fun c hs => ?_) (fun on hcome => ?_) (fun e hd => ?_) hchildren
        hwaiters
        hready
      · rwa [isSignalled, hcells]
      · cases on with
        | cell c => rwa [World.hasCome, isSettled, outcomeOf, hcells]
        | termination e => rwa [World.hasCome, isTerminated, stateOf?, hexecutors]
        | batch b => rwa [World.hasCome, hbatches]
      · rwa [isDrained, hexecutors]
    exact (hrec.trans hreport).trans (settleRun_rouses (hcells ▸ hc) _)
  · exact hrec.trans (settleRun_rouses hc _)
  · exact hrec.trans (settleRun_rouses hc _)
  · exact (hrec.trans (settleRun_rouses hc _)).trans (countDown_rouses ..)
  · rename_i b body hw
    have htold : child.cell < ((w.record (.ended child.cell r)).tellBatch b r).cells.length := by
      rw [(tellBatch_frame ..).2.2.1]
      exact hc
    exact ((hrec.trans (tellBatch_rouses ..)).trans (settleRun_rouses htold _)).trans
      (countDown_rouses ..)

/-! ## The end of a child -/

/-- A change to an executor that takes nothing back. -/
theorem modifyExecutor_rouses (w : World V) (e : Nat) {g : Executor → Executor}
    (hg : ∀ x, Executor.Later x (g x)) (hclosed : ∀ x, x.closed = true → (g x).closed = true)
    (htracked : ∀ x, (g x).tracked ≤ x.tracked) : Rouses w (w.modifyExecutor e g) := by
  have hl : Later w (w.modifyExecutor e g) := ⟨Nat.le_refl _, .modify .refl fun x _ => hg x,
    .refl .refl _, .refl .refl _, .refl .refl _, .refl .refl _, List.prefix_refl _⟩
  refine .of_same rfl (fun _ => hl.isSignalled) (fun _ => hl.hasCome) (fun k hk => ?_) rfl rfl rfl
  by_cases he : k = e
  · subst he
    rw [isDrained] at hk
    rw [isDrained, modifyExecutor, List.getElem?_modify_eq]
    cases hx : w.executors[k]? with
    | none => simp [hx] at hk
    | some x =>
      obtain ⟨hc, h0⟩ : x.closed = true ∧ x.tracked = 0 := by simpa [hx] using hk
      have h0' : (g x).tracked = 0 := Nat.le_zero.mp (h0 ▸ htracked x)
      simp [hclosed x hc, h0']
  · exact (isDrained_modifyExecutor_of_ne he).trans hk

theorem setStage_rouses (w : World V) (i : Nat) : Rouses w (w.setStage i .ended) :=
  { Rouses.refl w with
    child := fun k x hx => by
      obtain ⟨y, hy, ⟨-, rfl⟩ | ⟨-, rfl⟩⟩ := exists_getElem?_of_modify hx
      · exact .inr id
      · exact .inl hy
    ready := fun _ => .inl }

theorem release_rouses (w : World V) (e : Nat) : Rouses w (w.release e) := by
  have hreleased := w.modifyExecutor_rouses e (g := fun x => { x with tracked := x.tracked - 1 })
    (fun _ => ⟨rfl, rfl, Nat.le_refl _⟩) (fun _ => id) fun _ => Nat.sub_le _ _
  unfold release
  dsimp only
  split
  · rename_i hd
    refine hreleased.wake fun r hr hs => ?_
    rw [eq_of_beq hr] at hs
    exact Bool.noConfusion (hd.symm.trans hs)
  · exact hreleased

theorem endChild_rouses (w : World V) (i : Nat) : Rouses w (w.endChild i) := by
  unfold endChild
  split
  · exact .refl w
  · rename_i child hc
    let ending := (w.cancel child.cell true).1.endingOf child.cell
    have hdischarged := (w.cancel_rouses child.cell true).trans
      (modifyExecutor_rouses _ child.executor (g := fun x =>
        { x with registry := x.registry.erase i, counters := countEnding x.counters ending })
        (fun _ => ⟨rfl, rfl, Nat.le_refl _⟩) (fun _ => id) fun _ => Nat.le_refl _)
    have hreported : ∀ n, Rouses w (((w.cancel child.cell true).1.modifyExecutor child.executor
        fun x => { x with
          registry := x.registry.erase i
          counters := countEnding x.counters ending }).report n) := fun n => { hdischarged with }
    exact ((hreported _).trans (setStage_rouses _ i)).trans (release_rouses _ _)

theorem finish_rouses {child : Child V} (hc : child.cell < w.cells.length) (i : Nat)
    (r : RunEnd V) : Rouses w (w.finish i child r) :=
  (deliver_rouses hc r).trans (endChild_rouses _ i)

theorem markTerminated_rouses {e : Nat} (he : e < w.executors.length) :
    Rouses w (w.markTerminated e) := by
  have hset := w.modifyExecutor_rouses e (g := fun x => { x with state := .terminated })
    (fun x => ⟨rfl, rfl, x.state.rank_le_two⟩) (fun _ => id) fun _ => Nat.le_refl _
  have hcome : (w.modifyExecutor e fun x => { x with state := .terminated }).hasCome
      (.termination e) = true := by
    simp only [World.hasCome, isTerminated, stateOf?, modifyExecutor]
    rw [List.getElem?_modify_eq, List.getElem?_eq_getElem he]
    rfl
  have hrec : Rouses w ((w.modifyExecutor e fun x => { x with state := .terminated }).record
    (.terminated e)) := { hset with }
  have hwake := hrec.wake (p := World.awaits _ (.termination e)) fun r hr hs =>
    Bool.noConfusion ((hasCome_of_awaits hs hr).symm.trans hcome)
  exact { hwake with }

/-! ## Those who come in -/

/-- Whoever has just come in waits for nothing. -/
theorem not_sleeps_of_created {i : Nat} {child : Child V} (hc : w.children[i]? = some child)
    (hs : child.stage = .created) : ¬ w.Sleeps (.child i) := by
  rintro ⟨x, hx, -, hst⟩
  obtain rfl := Option.some.inj (hc.symm.trans hx)
  rw [hs] at hst
  exact hst

/-- An executor that still takes children in is not drained. -/
theorem addChild_rouses (w : World V) {e : Nat} (hd : w.isDrained e = false) (name : String)
    (work : Work V) (mark : Option Mark) : Rouses w (w.addChild e name work mark).1 := by
  have hl := addChild_later w e name work mark
  refine ⟨hl.clock, fun _ => hl.isSignalled, fun _ => hl.hasCome, fun k hk => ?_, fun i x hx => ?_,
    fun _ _ => .inl, fun r hr => ?_⟩
  · have hne : k ≠ e := by
      rintro rfl
      exact Bool.noConfusion (hk.symm.trans hd)
    exact (isDrained_modifyExecutor_of_ne hne).trans hk
  · rcases getElem?_concat_iff.mp hx with hx | ⟨-, rfl⟩
    · exact .inl hx
    · exact .inr id
  · refine (List.mem_append.mp hr).imp id fun hr => ?_
    obtain rfl := List.mem_singleton.mp hr
    exact not_sleeps_of_created List.getElem?_concat_length rfl

theorem isDrained_of_getElem? {e : Nat} {x : Executor} (hx : w.executors[e]? = some x) :
    w.isDrained e = (x.closed && x.tracked == 0) := by
  rw [isDrained, hx]

theorem isDrained_modifyExecutor {e : Nat} {g : Executor → Executor} (hg : ∀ x, (g x).tracked ≠ 0) :
    (w.modifyExecutor e g).isDrained e = false := by
  rw [isDrained, World.modifyExecutor, List.getElem?_modify_eq]
  cases w.executors[e]? <;> simp [hg]

theorem isDrained_addChild (w : World V) (e : Nat) (name : String) (work : Work V)
    (mark : Option Mark) : (w.addChild e name work mark).1.isDrained e = false := by
  have h : ∀ g : Executor → Executor, (∀ x, (g x).tracked = x.tracked + 1) →
      (w.modifyExecutor e g).isDrained e = false := fun g hg =>
    isDrained_modifyExecutor fun x => hg x ▸ Nat.succ_ne_zero _
  exact h _ fun _ => rfl

theorem openBatch_rouses (w : World V) {e : Nat} (hd : w.isDrained e = false) (name : String)
    (work : Nat → Body V → Work V) (bodies : List (Body V)) :
    Rouses w (w.openBatch e name work bodies) := by
  have hadded := (addBatchChildren_induct (P := fun w' => Rouses w w' ∧ w'.isDrained e = false)
    ⟨.refl w, hd⟩ e name (work w.batches.length) 0 bodies fun w' name body h =>
      ⟨h.1.trans (w'.addChild_rouses h.2 name _ none), isDrained_addChild ..⟩).1
  let w' := (w.addBatchChildren e name (work w.batches.length) 0 bodies).1
  have hl : ∀ x, Later w' { w' with batches := w'.batches ++ [x] } := fun x =>
    { Later.refl w' with batches := .append .refl _ _ }
  exact hadded.trans
    (.of_same rfl (fun _ => id) (fun _ => (hl _).hasCome) (fun _ => id) rfl rfl rfl)

/-! ## Those who wait -/

/-- A child that is let wait is ready at once only if it was told to end. -/
theorem parkChild_ready {i : Nat} {child : Child V} {s : Stage V} {r : TaskRef}
    (hc : w.children[i]? = some child) (hm : r ∈ (w.parkChild i s).ready) :
    r ∈ w.ready ∨ ¬ (w.parkChild i s).Sleeps r := by
  obtain ⟨-, -, hcells, hchildren, -⟩ := parkChild_frame s hc
  have hready := parkChild_eq s hc
  split at hready
  · rename_i hs
    rw [hready] at hm
    refine (List.mem_append.mp hm).imp id fun hm => ?_
    rw [List.mem_singleton.mp hm]
    rintro ⟨x, hx, ht, -⟩
    rw [hchildren, List.getElem?_modify_eq, hc] at hx
    obtain rfl := Option.some.inj hx
    rw [isSignalled, hcells] at ht
    exact Bool.noConfusion (hs.symm.trans ht)
  · rw [hready] at hm
    exact .inl hm

theorem moveTo_rouses {t : Duration} (ht : w.clock.elapsed ≤ t) : Rouses w (w.moveTo t) := by
  have hl : Later w { w with clock := { w.clock with elapsed := t } } :=
    { Later.refl w with clock := ht }
  have hset : Rouses w { w with clock := { w.clock with elapsed := t } } :=
    ⟨ht, fun _ => id, fun _ => hl.hasCome, fun _ => id, fun _ _ => .inl, fun _ _ => .inl,
      fun _ => .inl⟩
  refine hset.wake fun r hr hs => ?_
  unfold isDue deadline? at hr
  cases r with
  | child i =>
    obtain ⟨x, hx, -, hst⟩ := hs
    simp only [stageOf?, hx, Option.map_some] at hr
    split at hr
    · rename_i t' hdue
      split at hdue
      · rename_i hst'
        obtain rfl := Option.some.inj hdue
        rw [Option.some.inj hst'] at hst
        exact Nat.not_le_of_lt hst (of_decide_eq_true hr)
      · rename_i hst'
        obtain rfl := Option.some.inj hdue
        rw [Option.some.inj hst'] at hst
        exact Nat.not_le_of_lt hst (of_decide_eq_true hr)
      · cases hdue
    · cases hr
  | waiter j =>
    obtain ⟨x, on, deadline, hx, hst, -, hd⟩ := hs
    simp only [waiterStage?, hx, Option.map_some, hst] at hr
    split at hr
    · rename_i t'
      exact Nat.not_le_of_lt (hd t' rfl) (of_decide_eq_true hr)
    · cases hr
  | watcher e => simp at hr

end World

open World

variable {f f' : Focus} {w w' : World V}

/-- An executor that is drained stays so. -/
theorem Op.stays_drained (op : Op f w f' w') (hs : Steered f w) {e : Nat}
    (hd : w.isDrained e = true) : w'.isDrained e = true := by
  obtain ⟨x, hx, hc, h0⟩ : ∃ x, w.executors[e]? = some x ∧ x.closed = true ∧ x.tracked = 0 := by
    rw [isDrained] at hd
    cases hx : w.executors[e]? with
    | none => simp [hx] at hd
    | some x => exact ⟨x, rfl, by simpa [hx] using hd⟩
  have same : w'.executors = w.executors → w'.isDrained e = true := fun h => by
    rwa [isDrained, h]
  have lost : ∀ {k : Nat} {g : Executor → Executor}, w'.executors = w.executors.modify k g →
      (∀ x, x.closed = true → (g x).closed = true) → (∀ x, (g x).tracked ≤ x.tracked) →
      w'.isDrained e = true := by
    intro k g h hg hl
    have h0' : (g x).tracked = 0 := Nat.le_zero.mp (h0 ▸ hl x)
    rw [isDrained, h, List.getElem?_modify, hx]
    by_cases hk : k = e <;> simp [hk, hg x hc, hc, h0', h0]
  have open_ne : ∀ {k : Nat}, w.isRunning k = true → e ≠ k := by
    rintro k hrun rfl
    obtain ⟨y, hy, hs'⟩ := isRunning_iff.mp hrun
    obtain rfl := Option.some.inj (hx.symm.trans hy)
    exact (hs.steered hx).closed hc hs'
  cases op with
  | create name s =>
    rw [isDrained_of_getElem? (getElem?_concat_iff.mpr (.inl hx))]
    simp [hc, h0]
  | refuse k => exact lost rfl (fun _ => id) fun _ => Nat.le_refl _
  | enrol name mark hrun hb => exact (isDrained_modifyExecutor_of_ne (open_ne hrun)).trans hd
  | cancel hg => exact same (cancel_frame ..).2.1
  | drain hrun => exact lost rfl (fun _ => id) fun _ => Nat.le_refl _
  | close hy h0' =>
    refine lost (List.modify_modify_eq ..) (fun _ _ => rfl) fun _ => Nat.le_refl _
  | watch hy h0' => exact lost rfl (fun _ _ => rfl) fun _ => Nat.le_refl _
  | @start _ i child hy he hm hs' hr' hd' => exact same (countRun_frame w i child).2.1
  | pause rest hy he ho hp => exact same (parkChild_frame _ hy).2.1
  | sleep hy he hp hs' hk => exact same (parkChild_frame _ hy).2.1
  | @finish _ i child r hy he hr' hk =>
    exact lost (finish_executors (w := w.modifyCell child.cell (·.leave r)) r hy) (fun _ => id)
      fun _ => Nat.sub_le _ _
  | stop hy he hb => exact lost (finish_executors _ hy) (fun _ => id) fun _ => Nat.sub_le _ _
  | @openBatch _ _ k work bodies name hrun hw hn =>
    have hne := open_ne hrun
    have hadded := addBatchChildren_induct (P := fun w' => w'.isDrained e = true) hd k name
      (work w.batches.length) 0 bodies fun w' name body h =>
        (isDrained_modifyExecutor_of_ne hne).trans h
    exact hadded
  | grant count => exact same (by rw [addCancelledCells_cells])
  | terminate hd' => exact lost rfl (fun _ => id) fun _ => Nat.le_refl _
  | _ => exact same rfl

/-- A waiter whose turn it is not waits as it did. -/
theorem Op.waits_still (op : Op f w f' w') {j : Nat} {x : Waiter V} {on : Awaited}
    {deadline : Option Instant} (hf : f.task? ≠ some (.waiter j)) (hx : w'.waiters[j]? = some x)
    (hst : x.stage = .waiting on deadline) : w.waiters[j]? = some x := by
  rcases op.waiters_cases with h | ⟨y, hnew, h⟩ | ⟨k, h⟩ | ⟨k, y, on', deadline', hturn, -, -, h⟩
  · exact h ▸ hx
  · rcases getElem?_concat_iff.mp (h ▸ hx) with hx | ⟨-, rfl⟩
    · exact hx
    · rw [hnew] at hst
      cases hst
  · obtain ⟨y, hy, ⟨-, rfl⟩ | ⟨-, rfl⟩⟩ := exists_getElem?_of_modify (h ▸ hx)
    · cases hst
    · exact hy
  · obtain ⟨y, hy, ⟨rfl, -⟩ | ⟨-, rfl⟩⟩ := exists_getElem?_of_modify (h ▸ hx)
    · exact absurd hturn hf
    · exact hy

/-- A task that sleeps slept before, if it was not its turn. -/
theorem Op.slept (op : Op f w f' w') (hr : Reached f w) {r : TaskRef} (hf : f.task? ≠ some r)
    (h : w'.Sleeps r) : w.Sleeps r := by
  have hl := op.later
  cases r with
  | child i =>
    obtain ⟨x, hx, ht, hs⟩ := h
    rcases op.kept_or_new hf hx with hx | ⟨-, hnew⟩
    · refine ⟨x, hx, eq_false_of_imp hl.isSignalled ht, ?_⟩
      exact hl.stage hs
    · rw [hnew] at hs
      exact hs.elim
  | waiter j =>
    obtain ⟨x, on, deadline, hx, hst, hc, hd⟩ := h
    exact ⟨x, on, deadline, op.waits_still hf hx hst, hst, eq_false_of_imp hl.hasCome hc,
      fun t ht => Nat.lt_of_le_of_lt hl.clock (hd t ht)⟩
  | watcher e => exact eq_false_of_imp (op.stays_drained hr.steered) h

/-- Whoever becomes ready is awake, but for a watcher that has just come. -/
theorem Op.rouses (op : Op f w f' w') (hr : Reached f w) {r : TaskRef} (hm : r ∈ w'.ready) :
    r ∈ w.ready ∨ ¬ w'.Sleeps r ∨ ∃ b e, f = .shutting b e ∧ f' = .caller b ∧ r = .watcher e := by
  have rouses : Rouses w w' → r ∈ w.ready ∨ ¬ w'.Sleeps r ∨
      ∃ b e, f = .shutting b e ∧ f' = .caller b ∧ r = .watcher e :=
    fun h => (h.ready r hm).imp id .inl
  have hcell : ∀ {i : Nat} {child : Child V}, w.children[i]? = some child →
      child.cell < w.cells.length := hr.owned.cell_lt
  have hopen : ∀ {e}, w.isRunning e = true → w.isDrained e = false := fun {e} hrun => by
    obtain ⟨x, hx, hs⟩ := isRunning_iff.mp hrun
    have hc : x.closed = false :=
      Bool.eq_false_iff.mpr fun hc => (hr.steered.steered hx).closed hc hs
    rw [isDrained, hx]
    simp [hc]
  cases op with
  | enrol name mark hrun hb => exact rouses (w.addChild_rouses (hopen hrun) name _ mark)
  | await name hq =>
    refine (List.mem_append.mp hm).imp id fun hm => .inl ?_
    rintro hs
    rw [List.mem_singleton.mp hm] at hs
    obtain ⟨x, on, deadline, hx, hst, -⟩ := hs
    obtain rfl := Option.some.inj (List.getElem?_concat_length.symm.trans hx)
    cases hst
  | cancel hg => exact rouses (w.cancel_rouses ..)
  | @close _ _ e _ hx h0 =>
    have hclosed := w.modifyExecutor_rouses e (g := fun x => { x with closed := true })
      (fun _ => ⟨rfl, rfl, Nat.le_refl _⟩) (fun _ _ => rfl) fun _ => Nat.le_refl _
    refine rouses (hclosed.trans (markTerminated_rouses ?_))
    rw [modifyExecutor, List.length_modify]
    exact (List.getElem?_eq_some_iff.mp hx).1
  | watch hx h0 =>
    refine (List.mem_append.mp hm).imp id fun hm => ?_
    exact .inr ⟨_, _, rfl, rfl, List.mem_singleton.mp hm⟩
  | take hr => exact .inl (hr ▸ List.mem_cons_of_mem _ hm)
  | clock ht => exact rouses (moveTo_rouses ht)
  | @start _ i child hc he hm' hs hr hd => exact .inl ((countRun_frame w i child).2.2.2.2.1 ▸ hm)
  | pause rest hc he ho hp | sleep hc he hp hs hk => exact (parkChild_ready hc hm).imp id .inl
  | @yield _ i child hc he hp hk =>
    refine (List.mem_append.mp hm).imp id fun hm => .inl ?_
    rintro hs
    rw [List.mem_singleton.mp hm] at hs
    obtain ⟨x, hx, -, hst⟩ := hs
    obtain ⟨y, -, ⟨-, rfl⟩ | ⟨hi, -⟩⟩ := exists_getElem?_of_modify hx
    · exact Nat.lt_irrefl _ hst
    · exact hi rfl
  | @finish _ i child r hc he hr hk =>
    have hleft := w.modifyCell_rouses child.cell (g := (·.leave r)) fun cell _ => by
      cases r with
      | panicked => exact .refl cell
      | _ => exact ⟨fun _ => id, id, fun hp => by simp [Cell.leave, hp]⟩
    exact rouses (hleft.trans (finish_rouses (by
      rw [modifyCell, List.length_modify]
      exact hcell hc) i r))
  | stop hc he hb => exact rouses (finish_rouses (hcell hc) _ _)
  | openBatch name hrun hw hn => exact rouses (w.openBatch_rouses (hopen hrun) name _ _)
  | grant count => exact .inl (by rwa [addCancelledCells_cells] at hm)
  | @terminate _ e hd =>
    refine rouses (markTerminated_rouses (Nat.lt_of_not_le fun hn => ?_))
    rw [World.isDrained, List.getElem?_eq_none hn] at hd
    cases hd
  | _ => exact .inl hm

/-- A child or a waiter that is ready does not wait for anything that is yet to come. -/
theorem Reached.awake (h : Reached f w) :
    ∀ r ∈ w.ready, (∀ e, r ≠ .watcher e) → ¬ w.Sleeps r := by
  refine h.induct (P := fun _ w => ∀ r ∈ w.ready, (∀ e, r ≠ .watcher e) → ¬ w.Sleeps r)
    (fun jumps r hm => by cases hm) fun hr op ih r hm hne => ?_
  rcases op.rouses hr hm with hm | hs | ⟨b, e, -, -, rfl⟩
  · -- It was ready before, so it is not the one whose turn it is.
    have hf := fun hf => hr.placed.notMem hf (List.mem_append_left _ hm)
    exact fun hs => ih r hm hne (op.slept hr hf hs)
  · exact hs
  · exact absurd rfl (hne e)

/-! ## Watchers -/

/-- The shutdown of an executor begins while it runs. -/
theorem Op.begins (op : Op f w f' w') {e : Nat} (hf : f'.leaving? = some e) :
    f.leaving? = some e ∨ w.isRunning e = true := by
  cases op with
  | drain hr =>
    obtain rfl := Option.some.inj hf
    exact .inr hr
  | _ => first | exact .inl hf | cases hf

/-- A watcher waits until its executor is drained. -/
theorem Op.lingers (op : Op f w f' w') (hr : Reached f w) {e : Nat}
    (hm : .watcher e ∈ w.waiting) (hd : w'.isDrained e = false) : .watcher e ∈ w'.waiting := by
  have hr' := hr.op op
  have hready : .watcher e ∉ w.ready := fun hm' =>
    (List.nodup_append.mp (List.nodup_append.mp hr.placed.nodup).2.1).2.2 _ hm' _ hm rfl
  have hlive := (hr.placed.known (.watcher e)
    (List.mem_append_right _ (List.mem_append_right _ hm))).resolve_right (by simp)
  obtain ⟨x, hx, hclosed, hstate⟩ := live_watcher.mp hlive
  have hleaving : f.leaving? ≠ some e := fun hl =>
    Bool.noConfusion (hclosed.symm.trans ((hr.steered.steered hx).drains hl).1)
  have hleaving' : f'.leaving? ≠ some e := fun hl => by
    rcases op.begins hl with hl | hrun
    · exact hleaving hl
    · obtain ⟨y, hy, hs⟩ := isRunning_iff.mp hrun
      obtain rfl := Option.some.inj (hx.symm.trans hy)
      exact Lifecycle.noConfusion (hstate.symm.trans hs)
  -- The executor has not terminated, for it is not drained; so it still has its watcher.
  obtain ⟨y, hy, hl⟩ := op.later.executors e x hx
  have hsteered := hr'.steered.steered hy
  have hlive' : w'.Live (.watcher e) := by
    have hrank := hl.rank
    rw [hstate] at hrank
    refine live_watcher.mpr ⟨y, hy, ?_⟩
    cases hs : y.state with
    | running => rw [hs] at hrank; exact absurd hrank (by decide)
    | terminated =>
      obtain ⟨hc, h0⟩ := hsteered.terminated hs
      rw [isDrained_of_getElem? hy, hc, h0] at hd
      cases hd
    | draining =>
      cases hc : y.closed with
      | true => exact ⟨rfl, rfl⟩
      | false => exact absurd (hsteered.leaves hc (by simp [hs])) hleaving'
  rcases List.mem_append.mp (hr'.placed.placed _ hlive') with hm' | hm'
  · have hf := fun hf => hr.placed.notMem hf (List.mem_append_right _ hm)
    obtain ⟨-, -, rest, hrest, -⟩ := op.takes hf (Option.mem_toList.mp hm')
    exact absurd (hrest ▸ List.mem_cons_self) hready
  · rcases List.mem_append.mp hm' with hm' | hm'
    · rcases op.rouses hr hm' with hm' | hs | ⟨b, k, rfl, -, hk⟩
      · exact absurd hm' hready
      · exact absurd hd hs
      · exact absurd (congrArg some (TaskRef.watcher.inj hk).symm) hleaving
    · exact hm'

end TimedTasks

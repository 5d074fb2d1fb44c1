import TimedTasks.Proofs.Queue
/-!
No wake-up is lost. What a waiting task waits for has not come: whatever brings it about wakes the
task.
-/

namespace TimedTasks

variable {V : Type}

/-- Whether a child in a stage waits for something that has not come. -/
def Stage.Sleeps (w : World V) : Stage V → Prop
  | .scheduled due => w.now < due
  | .suspended on _ => on.Pending w
  | .stranded => True
  | .created | .ended => False

namespace World

/-- Whether a task waits for something that has not come. -/
def Sleeps (w : World V) : TaskRef → Prop
  | .child i => ∃ child, w.children[i]? = some child ∧ w.isSignalled child.cell = false ∧
      child.stage.Sleeps w
  | .waiter j => ∃ x on deadline, w.waiters[j]? = some x ∧ x.stage = .waiting on deadline ∧
      w.hasCome on = false ∧ ∀ t, deadline = some t → w.now < t
  | .watcher e => w.isDrained e = false

def Asleep (w : World V) : Prop := ∀ r ∈ w.waiting, w.Sleeps r

variable {w w' : World V}

section Cells

variable {c k : Nat} {g : Cell V → Cell V}

theorem outcomeOf_modify (h : w'.cells = w.cells.modify c g)
    (hg : ∀ cell, (g cell).outcome = cell.outcome) : w'.outcomeOf k = w.outcomeOf k := by
  rw [outcomeOf, outcomeOf, h, List.getElem?_modify]
  cases w.cells[k]? with
  | none => rfl
  | some cell => by_cases hc : c = k <;> simp [hc, hg]

theorem outcomeOf_modify_of_ne (h : w'.cells = w.cells.modify c g) (hk : k ≠ c) :
    w'.outcomeOf k = w.outcomeOf k := by
  rw [outcomeOf, outcomeOf, h, List.getElem?_modify]
  cases w.cells[k]? <;> simp [Ne.symm hk]

theorem isSignalled_modify (h : w'.cells = w.cells.modify c g)
    (hg : ∀ cell, (g cell).token = cell.token) : w'.isSignalled k = w.isSignalled k := by
  rw [isSignalled, isSignalled, h, List.getElem?_modify]
  cases w.cells[k]? with
  | none => rfl
  | some cell => by_cases hc : c = k <;> simp [hc, hg]

theorem isSignalled_modify_of_ne (h : w'.cells = w.cells.modify c g) (hk : k ≠ c) :
    w'.isSignalled k = w.isSignalled k := by
  rw [isSignalled, isSignalled, h, List.getElem?_modify]
  cases w.cells[k]? <;> simp [Ne.symm hk]

theorem isSignalled_concat {cell : Cell V} (h : w'.cells = w.cells ++ [cell])
    (ht : cell.token = false) (hk : w.isSignalled k = false) : w'.isSignalled k = false := by
  cases hc : w'.cells[k]? with
  | none => simp [isSignalled, hc]
  | some a =>
    rcases getElem?_concat_iff.mp (h ▸ hc) with ha | ⟨-, rfl⟩
    · rw [isSignalled, ha] at hk
      rw [isSignalled, hc, hk]
    · rw [isSignalled, hc]
      exact ht

theorem isSettled_concat {cell : Cell V} (h : w'.cells = w.cells ++ [cell])
    (ho : cell.outcome = none) (hk : w.isSettled k = false) : w'.isSettled k = false := by
  cases hc : w'.cells[k]? with
  | none => simp [isSettled_eq, hc]
  | some a =>
    rcases getElem?_concat_iff.mp (h ▸ hc) with ha | ⟨-, rfl⟩
    · rw [isSettled_eq, ha] at hk
      rw [isSettled_eq, hc, hk]
    · rw [isSettled_eq, hc]
      exact congrArg Option.isSome ho

end Cells

theorem stateOf?_modifyExecutor {e k : Nat} {g : Executor → Executor}
    (hg : ∀ x, (g x).state = x.state) : (w.modifyExecutor e g).stateOf? k = w.stateOf? k := by
  show ((w.executors.modify e g)[k]?).map _ = _
  rw [List.getElem?_modify, stateOf?]
  cases w.executors[k]? with
  | none => rfl
  | some x => by_cases hk : e = k <;> simp [hk, hg]

/-- A change that leaves its state to an executor terminates none. -/
theorem not_terminated_modifyExecutor {e k : Nat} {g : Executor → Executor}
    (hg : ∀ x, (g x).state = x.state) (hc : w.hasCome (.termination k) = false) :
    (w.modifyExecutor e g).hasCome (.termination k) = false :=
  (congrArg (· == some Lifecycle.terminated) (stateOf?_modifyExecutor hg)).trans hc

theorem isDrained_modifyExecutor_of_ne {e k : Nat} {g : Executor → Executor} (hk : k ≠ e) :
    (w.modifyExecutor e g).isDrained k = w.isDrained k := by
  rw [isDrained, isDrained, World.modifyExecutor, List.getElem?_modify]
  cases w.executors[k]? <;> simp [Ne.symm hk]

theorem awaits_iff {on : Awaited} {r : TaskRef} :
    w.awaits on r = true ↔
      ∃ j x deadline, r = .waiter j ∧ w.waiters[j]? = some x ∧ x.stage = .waiting on deadline := by
  cases r with
  | waiter j =>
    cases hx : w.waiters[j]? with
    | none => simp [awaits, waiterStage?, hx]
    | some x =>
      cases hs : x.stage <;> simp [awaits, waiterStage?, hx, hs]
  | _ => simp [awaits]

/-- Nothing that a task waits for comes from one state to the other. -/
structure Undisturbed (w w' : World V) (r : TaskRef) : Prop where
  clock : w'.clock = w.clock
  child : ∀ i x, r = .child i → w.children[i]? = some x → w'.children[i]? = some x
  waiter : ∀ j x, r = .waiter j → w.waiters[j]? = some x → w'.waiters[j]? = some x
  signal : ∀ c, w.ownsCell c r = true → w.isSignalled c = false → w'.isSignalled c = false
  settle : ∀ c, w.awaitedCell? r = some c → w.isSettled c = false → w'.isSettled c = false
  batch : ∀ b, w.awaits (.batch b) r = true → w.hasCome (.batch b) = false →
    w'.hasCome (.batch b) = false
  termination : ∀ e, w.awaits (.termination e) r = true → w.hasCome (.termination e) = false →
    w'.hasCome (.termination e) = false
  drain : ∀ e, r = .watcher e → w.isDrained e = false → w'.isDrained e = false

theorem Undisturbed.refl (w : World V) (r : TaskRef) : Undisturbed w w r :=
  ⟨rfl, fun _ _ _ => id, fun _ _ _ => id, fun _ _ => id, fun _ _ => id, fun _ _ => id,
    fun _ _ => id, fun _ _ => id⟩

theorem Sleeps.keep {r : TaskRef} (h : w.Sleeps r) (hu : Undisturbed w w' r) : w'.Sleeps r := by
  obtain ⟨clock, child, waiter, signal, settle, batch, termination, drain⟩ := hu
  have hnow : ∀ t, w.now < t → w'.now < t := fun t ht => by rwa [now, clock]
  cases r with
  | child i =>
    obtain ⟨x, hx, ht, hs⟩ := h
    refine ⟨x, child i x rfl hx, signal _ (by simp [ownsCell, hx]) ht, ?_⟩
    cases hstage : x.stage with
    | scheduled due => rw [hstage] at hs; exact hnow due hs
    | suspended on rest =>
      rw [hstage] at hs
      cases on with
      | time t => exact hnow t hs
      | cell c joined => exact settle c (by simp [awaitedCell?, stageOf?, hx, hstage]) hs
      | forever => trivial
    | stranded => trivial
    | created => rw [hstage] at hs; exact hs
    | ended => rw [hstage] at hs; exact hs
  | waiter j =>
    obtain ⟨x, on, deadline, hx, hs, hc, hd⟩ := h
    refine ⟨x, on, deadline, waiter j x rfl hx, hs, ?_, fun t ht => hnow t (hd t ht)⟩
    cases on with
    | cell c => exact settle c (by simp [awaitedCell?, waiterStage?, hx, hs]) hc
    | termination e => exact termination e (awaits_iff.mpr ⟨j, x, deadline, rfl, hx, hs⟩) hc
    | batch b => exact batch b (awaits_iff.mpr ⟨j, x, deadline, rfl, hx, hs⟩) hc
  | watcher e => exact drain e rfl h

/-- Another child or waiter changes. -/
theorem Sleeps.modifyChild {r : TaskRef} (h : w.Sleeps r) {i : Nat} (g : Child V → Child V)
    (hi : r ≠ .child i) : (w.modifyChild i g).Sleeps r := by
  refine h.keep { Undisturbed.refl w r with child := fun k x hk hx => ?_ }
  have hne : i ≠ k := fun he => hi (he ▸ hk)
  exact (List.getElem?_modify_ne _ _ hne).trans hx

theorem Sleeps.modifyWaiter {r : TaskRef} (h : w.Sleeps r) {j : Nat} (g : Waiter V → Waiter V)
    (hj : r ≠ .waiter j) : (w.modifyWaiter j g).Sleeps r := by
  refine h.keep { Undisturbed.refl w r with waiter := fun k x hk hx => ?_ }
  have hne : j ≠ k := fun he => hj (he ▸ hk)
  exact (List.getElem?_modify_ne _ _ hne).trans hx

theorem mem_wake_waiting {p : TaskRef → Bool} {r : TaskRef} :
    r ∈ (w.wake p).waiting ↔ r ∈ w.waiting ∧ p r = false := by
  simp [wake]

/-- What a task waits for is there. -/
theorem Sound.awaitedCell_lt (h : Sound w) {r : TaskRef} {c : Nat}
    (hc : w.awaitedCell? r = some c) : c < w.cells.length := by
  cases r with
  | child i =>
    cases hx : w.children[i]? with
    | none => simp [awaitedCell?, stageOf?, hx] at hc
    | some x =>
      simp only [awaitedCell?, stageOf?, hx, Option.map_some] at hc
      split at hc
      · rename_i hs
        obtain rfl := Option.some.inj hc
        exact h.waits hx (Option.some.inj hs)
      · cases hc
  | waiter j =>
    cases hx : w.waiters[j]? with
    | none => simp [awaitedCell?, waiterStage?, hx] at hc
    | some x =>
      simp only [awaitedCell?, waiterStage?, hx, Option.map_some] at hc
      split at hc
      · rename_i hs
        obtain rfl := Option.some.inj hc
        have hq := (h.seated hx).suits (Option.some.inj hs)
        have hr := h.requests hx
        cases hreq : x.request with
        | get c' bound =>
          rw [hreq] at hq hr
          obtain rfl := Awaited.cell.inj hq
          exact hr
        | termination e bound => rw [hreq] at hq; cases hq
        | invokeAll e bodies bound | invokeAny e bodies bound =>
          rw [hreq] at hq
          obtain ⟨b, hb⟩ := hq
          cases hb
      · cases hc
  | watcher e => cases hc

namespace Asleep

theorem of_subset (h : Asleep w) (hsub : ∀ r ∈ w'.waiting, r ∈ w.waiting)
    (hk : ∀ r ∈ w'.waiting, w.Sleeps r → w'.Sleeps r) : Asleep w' :=
  fun r hr => hk r hr (h r (hsub r hr))

/-- Some tasks are woken, and the others go on to wait. -/
theorem wake (h : Asleep w) (w' : World V) {p : TaskRef → Bool} (waiting : w'.waiting = w.waiting)
    (hk : ∀ r, w.Sleeps r → p r = false → (w'.wake p).Sleeps r) : Asleep (w'.wake p) := by
  intro r hr
  obtain ⟨hr, hp⟩ := mem_wake_waiting.mp hr
  exact hk r (h r (waiting ▸ hr)) hp

/-- A change to a cell that settles and signals nothing. -/
theorem modifyCell (h : Asleep w) (c : Nat) {g : Cell V → Cell V}
    (ho : ∀ cell, (g cell).outcome = cell.outcome) (ht : ∀ cell, (g cell).token = cell.token) :
    Asleep (w.modifyCell c g) := by
  refine h.of_subset (fun _ => id) fun r hr hs => ?_
  exact hs.keep { Undisturbed.refl w r with
    signal := fun k _ => (isSignalled_modify (k := k) rfl ht).trans
    settle := fun k _ => (congrArg Option.isSome (outcomeOf_modify (k := k) rfl ho)).trans }

theorem report (h : Asleep w) (n : Notice) : Asleep (w.report n) := fun r hr => h r hr

theorem enqueue (h : Asleep w) (r : TaskRef) : Asleep (w.enqueue r) := fun r hr => h r hr

theorem settle (h : Asleep w) (c : Nat) (o : Outcome V) : Asleep (w.settle c o) := by
  unfold World.settle
  split
  · exact h
  · apply h.wake (w.modifyCell c _) rfl
    intro r hs hp
    refine hs.keep { Undisturbed.refl w r with
      signal := fun k _ => (isSignalled_modify (k := k) (c := c)
        (g := fun cell => { cell with outcome := some o }) rfl fun _ => rfl).trans
      settle := fun k hk ht => ?_ }
    -- The readers of the cell were woken, so this task reads another one.
    have hne : k ≠ c := by
      rintro rfl
      exact Bool.noConfusion (hp.symm.trans (beq_iff_eq.mpr hk))
    exact (congrArg Option.isSome (outcomeOf_modify_of_ne rfl hne)).trans ht

theorem signal (h : Asleep w) (c : Nat) : Asleep (w.signal c) := by
  unfold World.signal
  split
  · exact h
  · apply h.wake (w.modifyCell c _) rfl
    intro r hs hp
    refine hs.keep { Undisturbed.refl w r with
      signal := fun k hk ht => ?_
      settle := fun k _ => (congrArg Option.isSome (outcomeOf_modify (k := k) (c := c)
        (g := fun cell => { cell with token := true }) rfl fun _ => rfl)).trans }
    -- The owner of the cell was woken, so this task owns another one.
    have hne : k ≠ c := by
      rintro rfl
      exact Bool.noConfusion (hp.symm.trans hk)
    exact (isSignalled_modify_of_ne rfl hne).trans ht

theorem cancel (h : Asleep w) (c : Nat) (interrupt : Bool) :
    Asleep (w.cancel c interrupt).1 := by
  unfold World.cancel
  split
  · have hp := h.modifyCell c (g := fun cell => { cell with phase := .closed }) (fun _ => rfl)
      fun _ => rfl
    exact (hp.settle c .cancelled).signal c
  · exact h

theorem settleRun (h : Asleep w) (c : Nat) (r : RunEnd V) : Asleep (w.settleRun c r) := by
  cases r with
  | panicked => exact h
  | _ => exact h.settle c _

/-- What a batch hears, unless that lets its caller go on. -/
theorem modifyBatch (h : Asleep w) (b : Nat) {g : Batch V → Batch V}
    (hg : ∀ x, (g x).notified = x.notified) : Asleep (w.modifyBatch b g) := by
  refine h.of_subset (fun _ => id) fun r hr hs => ?_
  refine hs.keep { Undisturbed.refl w r with batch := fun k _ hc => ?_ }
  show (((w.batches.modify b g)[k]?).map _).getD _ = _
  rw [List.getElem?_modify]
  have hc : ((w.batches[k]?).map (·.notified)).getD false = false := hc
  cases hk : w.batches[k]? with
  | none => rfl
  | some x => by_cases hb : b = k <;> simpa [hb, hg, hk] using hc

theorem notifyBatch (h : Asleep w) (b : Nat) : Asleep (w.notifyBatch b) := by
  apply h.wake (w.modifyBatch b _) rfl
  intro r hs hp
  refine hs.keep { Undisturbed.refl w r with batch := fun k hk hc => ?_ }
  have hne : b ≠ k := by
    rintro rfl
    exact Bool.noConfusion (hp.symm.trans hk)
  show (((w.batches.modify b _)[k]?).map _).getD _ = _
  rw [List.getElem?_modify]
  cases hb : w.batches[k]? with
  | none => rfl
  | some x => simpa [World.hasCome, hne, hb] using hc

theorem tellBatch (h : Asleep w) (b : Nat) (r : RunEnd V) : Asleep (w.tellBatch b r) := by
  cases r with
  | returned value =>
    simp only [World.tellBatch, World.offer]
    split
    · split
      · have hm := h.modifyBatch b (g := fun x => { x with winner := some value }) fun _ => rfl
        exact hm.notifyBatch b
      · exact h
    · exact h
  | failed cause => exact h.modifyBatch b fun _ => rfl
  | _ => exact h

theorem countDown (h : Asleep w) (b : Nat) : Asleep (w.countDown b) := by
  have hm := h.modifyBatch b (g := fun x => { x with remaining := x.remaining - 1 }) fun _ => rfl
  unfold World.countDown
  dsimp only
  split
  · split
    · exact hm.notifyBatch b
    · exact hm
  · exact hm

theorem reportUnwanted (h : Asleep w) (child : Child V) (yield : Yield V) (r : RunEnd V) :
    Asleep (w.reportUnwanted child yield r) := by
  unfold World.reportUnwanted
  split
  · split <;> exact h
  · exact h

theorem deliver (h : Asleep w) (child : Child V) (r : RunEnd V) : Asleep (w.deliver child r) := by
  have hr : Asleep (w.record (.ended child.cell r)) := h
  unfold World.deliver
  dsimp only
  split
  · exact (hr.reportUnwanted child _ r).settleRun _ _
  · exact hr.settleRun _ _
  · exact hr.settleRun _ _
  · exact (hr.settleRun _ _).countDown _
  · exact ((hr.tellBatch _ r).settleRun _ _).countDown _

/-- A change to an executor that neither drains nor terminates it. -/
theorem modifyExecutor (h : Asleep w) (e : Nat) {g : Executor → Executor}
    (hd : ∀ x, w.executors[e]? = some x → (g x).closed = true → (g x).tracked = 0 →
      x.closed = true ∧ x.tracked = 0)
    (ht : ∀ x, w.executors[e]? = some x → (g x).state = .terminated → x.state = .terminated) :
    Asleep (w.modifyExecutor e g) := by
  refine h.of_subset (fun _ => id) fun r hr hs => ?_
  refine hs.keep { Undisturbed.refl w r with
    termination := fun k _ hc => ?_
    drain := fun k _ hc => ?_ }
  · have hc : (w.executors[k]?.map (·.state) == some .terminated) = false := hc
    show (((w.executors.modify e g)[k]?).map _ == _) = false
    rw [List.getElem?_modify]
    cases hx : w.executors[k]? with
    | none => rfl
    | some x =>
      by_cases hk : e = k
      · subst hk
        have hs : x.state ≠ .terminated := by simpa [hx] using hc
        have := mt (ht x hx) hs
        simpa using this
      · simpa [hk, hx] using hc
  · cases hx : w.executors[k]? with
    | none => simp [isDrained, World.modifyExecutor, List.getElem?_modify, hx]
    | some x =>
      by_cases hk : e = k
      · subst hk
        have hs : ¬(x.closed = true ∧ x.tracked = 0) := by simpa [isDrained, hx] using hc
        have := mt (fun hg : (g x).closed = true ∧ (g x).tracked = 0 => hd x hx hg.1 hg.2) hs
        simpa [isDrained, World.modifyExecutor, hx] using this
      · simpa [isDrained, World.modifyExecutor, hx, hk] using hc

theorem markTerminated (h : Asleep w) (e : Nat) : Asleep (w.markTerminated e) := by
  apply h.wake ((w.modifyExecutor e _).record _) rfl
  intro r hs hp
  refine hs.keep { Undisturbed.refl w r with
    termination := fun k hk hc => ?_
    drain := fun k _ hc => ?_ }
  · have hne : e ≠ k := by
      rintro rfl
      exact Bool.noConfusion (hp.symm.trans hk)
    have hc : (w.executors[k]?.map (·.state) == some .terminated) = false := hc
    show (((w.executors.modify e _)[k]?).map _ == _) = false
    rw [List.getElem?_modify]
    cases hx : w.executors[k]? with
    | none => rfl
    | some x => simpa [hne, hx] using hc
  · show isDrained { w with executors := w.executors.modify e _ } k = false
    cases hx : w.executors[k]? with
    | none => simp [isDrained, List.getElem?_modify, hx]
    | some x =>
      have hc : x.closed = true → ¬x.tracked = 0 := by simpa [isDrained, hx] using hc
      by_cases hk : e = k <;> simpa [isDrained, hx, hk] using hc

/-- An executor comes in, which neither has terminated nor is drained. -/
theorem addExecutor (h : Asleep w) (s : Settings) : Asleep (w.addExecutor s).1 := by
  refine h.of_subset (fun _ => id) fun r hr hs => ?_
  refine hs.keep { Undisturbed.refl w r with
    termination := fun e _ ht => ?_
    drain := fun e _ hd => ?_ }
  · show (((w.executors ++ [_])[e]?).map _ == _) = false
    rw [List.getElem?_append]
    split
    · exact ht
    · rw [List.getElem?_singleton]
      split <;> rfl
  · show isDrained { w with executors := w.executors ++ [_] } e = false
    rw [isDrained, List.getElem?_append]
    by_cases he : e < w.executors.length
    · rw [if_pos he]
      exact hd
    · rw [if_neg he, List.getElem?_singleton]
      by_cases h0 : e - w.executors.length = 0 <;> simp [h0]

/-- An executor is closed, and may be drained by that: nobody watches it yet. -/
theorem close (h : Asleep w) {e : Nat} (hn : .watcher e ∉ w.waiting) :
    Asleep (w.modifyExecutor e fun x => { x with closed := true }) := by
  refine h.of_subset (fun _ => id) fun r hr hs => ?_
  refine hs.keep { Undisturbed.refl w r with
    termination := fun k _ ht => not_terminated_modifyExecutor (fun _ => rfl) ht
    drain := fun k hk hd => ?_ }
  have hne : k ≠ e := by
    rintro rfl
    exact hn (hk ▸ hr)
  exact (isDrained_modifyExecutor_of_ne hne).trans hd

theorem release (h : Asleep w) (e : Nat) : Asleep (w.release e) := by
  let w₁ := w.modifyExecutor e fun x => { x with tracked := x.tracked - 1 }
  have hk : ∀ r, w.Sleeps r → (r = .watcher e → w₁.isDrained e = false) → w₁.Sleeps r := by
    intro r hs hr
    refine hs.keep { Undisturbed.refl w r with
      termination := fun k _ hc => ?_
      drain := fun k hrk hc => ?_ }
    · exact not_terminated_modifyExecutor (fun _ => rfl) hc
    · by_cases hke : k = e
      · subst hke
        exact hr hrk
      · exact (isDrained_modifyExecutor_of_ne hke).trans hc
  unfold World.release
  dsimp only
  split
  · apply h.wake w₁ rfl
    intro r hs hp
    -- The watcher of this executor was woken, so it is another task that waits.
    apply hk r hs
    intro he
    simp [he] at hp
  · rename_i hd
    exact h.of_subset (fun _ => id) fun r _ hs => hk r hs fun _ => Bool.eq_false_iff.mpr hd

theorem modifyChild (h : Asleep w) {i : Nat} (g : Child V → Child V)
    (hi : .child i ∉ w.waiting) : Asleep (w.modifyChild i g) :=
  h.of_subset (fun _ => id) fun _ hr hs => hs.modifyChild g fun he => hi (he ▸ hr)

theorem modifyWaiter (h : Asleep w) {j : Nat} (g : Waiter V → Waiter V)
    (hj : .waiter j ∉ w.waiting) : Asleep (w.modifyWaiter j g) :=
  h.of_subset (fun _ => id) fun _ hr hs => hs.modifyWaiter g fun he => hj (he ▸ hr)

theorem suspend (h : Asleep w) {r : TaskRef} (hr : w.Sleeps r) : Asleep (w.suspend r) := by
  intro r' hm
  rcases List.mem_append.mp hm with hm | hm
  · exact h r' hm
  · rw [List.mem_singleton.mp hm]
    exact hr

theorem endChild (h : Asleep w) {i : Nat} (hi : .child i ∉ w.queue) : Asleep (w.endChild i) := by
  unfold World.endChild
  split
  · exact h
  · rename_i child _
    have hc := h.cancel child.cell true
    have hw : .child i ∉ (w.cancel child.cell true).1.waiting := fun hm =>
      hi ((cancel_queue w child.cell true).subset (List.mem_append_right _ hm))
    let ending := (w.cancel child.cell true).1.endingOf child.cell
    have hx := hc.modifyExecutor child.executor (g := fun x =>
      { x with registry := x.registry.erase i, counters := countEnding x.counters ending })
      (fun _ _ h₁ h₂ => ⟨h₁, h₂⟩) fun _ _ => id
    exact ((hx.report _).modifyChild _ hw).release _

theorem finish (h : Asleep w) {i : Nat} (child : Child V) (r : RunEnd V)
    (hi : .child i ∉ w.queue) : Asleep (w.finish i child r) :=
  (h.deliver child r).endChild fun hm => hi ((deliver_queue w child r).subset hm)

theorem addChild (h : Asleep w) (e : Nat) (name : String) (work : Work V) (mark : Option Mark) :
    Asleep (w.addChild e name work mark).1 := by
  refine h.of_subset (fun _ => id) fun r hr hs => ?_
  refine hs.keep { Undisturbed.refl w r with
    child := fun i x _ hx => getElem?_concat_iff.mpr (.inl hx)
    signal := fun c _ => isSignalled_concat rfl rfl
    settle := fun c _ => isSettled_concat rfl rfl
    termination := fun k _ ht => ?_
    drain := fun k _ hd => ?_ }
  · exact not_terminated_modifyExecutor (fun _ => rfl) ht
  · show isDrained { w with executors := w.executors.modify e _ } k = false
    rw [isDrained] at hd ⊢
    rw [List.getElem?_modify]
    cases hx : w.executors[k]? with
    | none => rfl
    | some x => by_cases hk : e = k <;> simp_all

theorem openBatch (h : Asleep w) (e : Nat) (name : String) (work : Nat → Body V → Work V)
    (bodies : List (Body V)) : Asleep (w.openBatch e name work bodies) := by
  have hb := addBatchChildren_induct h e name (work w.batches.length) 0 bodies
    fun _ name _ hp => hp.addChild e name _ none
  refine hb.of_subset (fun _ => id) fun r hr hs => ?_
  refine hs.keep { Undisturbed.refl _ r with batch := fun b _ hc => ?_ }
  show (((World.addBatchChildren w e name _ 0 bodies).1.batches ++ [_])[b]?.map _).getD _ = _
  rw [List.getElem?_append]
  split
  · exact hc
  · rw [List.getElem?_singleton]
    split <;> rfl

theorem addCancelledCells (h : Asleep w) (hs : Sound w) (count : Nat) :
    Asleep (w.addCancelledCells count).1 := by
  rw [addCancelledCells_cells]
  refine h.of_subset (fun _ => id) fun r hr hr => ?_
  refine hr.keep { Undisturbed.refl w r with
    signal := fun c _ ht => ?_
    settle := fun c hc ho => ?_ }
  · show (((w.cells ++ List.replicate count _)[c]?).map _).getD _ = _
    rw [List.getElem?_append]
    split
    · exact ht
    · rw [List.getElem?_replicate]
      split <;> rfl
  · -- The new cells are settled, but nobody can wait for one of them.
    have hlt : c < w.cells.length := hs.awaitedCell_lt hc
    rw [isSettled_eq] at ho ⊢
    rwa [List.getElem?_append_left hlt]

theorem parkChild (h : Asleep w) {i : Nat} {child : Child V} {s : Stage V}
    (hc : w.children[i]? = some child) (hi : .child i ∉ w.waiting) (hs : s.Sleeps w) :
    Asleep (w.parkChild i s) := by
  have hm : Asleep (w.setStage i s) := h.modifyChild _ hi
  rw [parkChild_eq s hc]
  split
  · exact hm.enqueue _
  · rename_i ht
    refine hm.suspend ⟨{ child with stage := s }, ?_, Bool.eq_false_iff.mpr ht, hs⟩
    show (w.children.modify i _)[i]? = _
    rw [List.getElem?_modify_eq, hc]
    rfl

theorem moveTo (h : Asleep w) (t : Duration) : Asleep (w.moveTo t) := by
  -- The clock has moved, and nobody was woken yet.
  let w₁ : World V := { w with clock := { w.clock with elapsed := t } }
  have hk : ∀ r, w.Sleeps r → w₁.isDue r = false → w₁.Sleeps r := by
    intro r hs hd
    cases r with
    | child i =>
      obtain ⟨x, hx, ht, hs⟩ := hs
      rw [isDue] at hd
      refine ⟨x, hx, ht, ?_⟩
      cases hstage : x.stage with
      | scheduled due =>
        simpa [Stage.Sleeps, Wait.Pending, World.deadline?, stageOf?, w₁, hx, hstage] using hd
      | suspended on rest =>
        rw [hstage] at hs
        cases on with
        | time t =>
          simpa [Stage.Sleeps, Wait.Pending, World.deadline?, stageOf?, w₁, hx, hstage] using hd
        | cell c joined => exact hs
        | forever => trivial
      | stranded => trivial
      | created => rw [hstage] at hs; exact hs
      | ended => rw [hstage] at hs; exact hs
    | waiter j =>
      obtain ⟨x, on, deadline, hx, hs, hc, -⟩ := hs
      refine ⟨x, on, deadline, hx, hs, ?_, ?_⟩
      · cases on <;> exact hc
      · rintro t rfl
        simpa [isDue, World.deadline?, waiterStage?, w₁, hx, hs] using hd
    | watcher e => exact hs
  exact h.wake w₁ rfl hk

end Asleep

theorem Placed.notMem {f : Focus} (h : Placed f w) {r : TaskRef} (hf : f.task? = some r) :
    r ∉ w.queue := by
  have hn := h.nodup
  rw [hf] at hn
  exact (List.nodup_cons.mp hn).1

end World

open World

variable {f f' : Focus} {w w' : World V}

theorem Op.asleep (op : Op f w f' w') (hs : Sound w) (hl : Steered f w) (hp : Placed f w)
    (h : Asleep w) : Asleep w' := by
  have hw : ∀ {r}, f.task? = some r → r ∉ w.waiting := fun hf hm =>
    hp.notMem hf (List.mem_append_right _ hm)
  cases op with
  | create name s => exact h.addExecutor s
  | refuse e => exact h.modifyExecutor e (fun _ _ h₁ h₂ => ⟨h₁, h₂⟩) fun _ _ => id
  | enrol name mark hr hb => exact h.addChild _ name _ mark
  | await name hq =>
    refine h.of_subset (fun _ => id) fun r hr hr => ?_
    exact hr.keep { Undisturbed.refl w r with
      waiter := fun j x _ hx => getElem?_concat_iff.mpr (.inl hx) }
  | abort j =>
    apply h.of_subset (fun r hr => (List.mem_filter.mp hr).1)
    intro r hr hs
    have hm := hs.modifyWaiter (j := j) (fun x => { x with stage := .ended }) (by
      simpa using (List.mem_filter.mp hr).2)
    exact hm
  | cancel hg => exact h.cancel _ _
  | @drain _ _ e hr =>
    exact h.modifyExecutor e (g := fun x => { x with state := .draining })
      (fun _ _ h₁ h₂ => ⟨h₁, h₂⟩) (by simp)
  | @close _ _ e x hx h0 =>
    -- The closed executor is drained, but has no watcher that could miss it.
    have hn : .watcher e ∉ w.waiting := by
      intro hm
      rcases hp.known _ (List.mem_append_right _ (List.mem_append_right _ hm)) with hw | ⟨j, -, he⟩
      · exact hl.not_live_watcher hw
      · cases he
    exact (h.close hn).markTerminated e
  | @watch _ _ e x hx h0 =>
    refine (h.modifyExecutor e (g := fun x => { x with closed := true }) (fun y hy _ ht => ?_)
      fun _ _ => id).enqueue _
    obtain rfl := Option.some.inj (hx.symm.trans hy)
    exact absurd ht h0
  | clock ht => exact h.moveTo _
  | @start _ i child hc he hm hs hr hd =>
    have hr : Asleep (w.countRun i child) := by
      unfold countRun
      split
      · exact h.modifyChild _ (hw rfl)
      · exact h
    exact hr.modifyCell _ (fun _ => rfl) fun _ => rfl
  | drop hc he hs => exact h.modifyCell _ (fun _ => rfl) fun _ => rfl
  | pause rest hc he ho hp => exact h.parkChild hc (hw rfl) hp
  | again value hc hk => exact h.modifyCell _ (fun _ => rfl) fun _ => rfl
  | remark next hc hk => exact h.modifyCell _ (fun _ => rfl) fun _ => rfl
  | sleep hc he hp hs hk =>
    refine h.parkChild hc (hw rfl) ?_
    rcases hs with rfl | ⟨due, rfl, hd⟩
    · trivial
    · exact hd
  | yield hc he hp hk => exact (h.modifyChild _ (hw rfl)).enqueue _
  | @finish _ i child r hc he hr hk =>
    have hm := h.modifyCell child.cell (g := (·.leave r)) (fun _ => by cases r <;> rfl)
      fun _ => by cases r <;> rfl
    exact hm.finish child r (hp.notMem rfl)
  | stop hc he hb => exact h.finish _ _ (hp.notMem rfl)
  | openBatch name hr hw hn => exact h.openBatch _ name _ _
  | grant count => exact h.addCancelledCells hs count
  | @wait _ j x on deadline hx he hq hb hc hd =>
    have hm := h.modifyWaiter (fun y => { y with stage := .waiting on deadline }) (hw rfl)
    refine hm.suspend ⟨{ x with stage := .waiting on deadline }, on, deadline, ?_, rfl, hc, hd⟩
    show (w.waiters.modify j _)[j]? = _
    rw [List.getElem?_modify_eq, hx]
    rfl
  | answer => exact h.modifyWaiter _ (hw rfl)
  | linger hd => exact h.suspend hd
  | terminate hd => exact h.markTerminated _
  | _ => exact fun r hr => h r hr

theorem Reached.asleep (h : Reached f w) : Asleep w := by
  refine h.induct (P := fun _ w => Asleep w) (fun jumps => fun r hr => by cases hr) fun hr op hw =>
    op.asleep hr.sound hr.steered hr.placed hw

/-- When no task is ready, every task that has not ended waits for something that has not come. -/
theorem Reached.sleeps (h : Reached (.caller none) w) (hq : w.ready = []) {r : TaskRef}
    (hl : w.Live r) : w.Sleeps r := by
  have hm := h.placed.placed r hl
  rw [queue, hq] at hm
  exact h.asleep r hm

end TimedTasks

import TimedTasks.Proofs.Lifetime
/-!
Where tasks are. Every task that has not ended is the one whose turn it is, or is ready, or waits,
and is in one place only. Waking moves tasks from `waiting` to `ready` and loses none.
-/

namespace TimedTasks

theorem map_modify_eq {α β : Type} {l : List α} {i : Nat} {f : α → α} {g : α → β}
    (h : ∀ a, l[i]? = some a → g (f a) = g a) : (l.modify i f).map g = l.map g := by
  apply List.ext_getElem?
  intro j
  rw [List.getElem?_map, List.getElem?_map, List.getElem?_modify]
  by_cases hij : i = j
  · subst hij
    cases hl : l[i]? with
    | none => rfl
    | some a => simp [h a hl]
  · simp [hij]

theorem getElem?_map_concat_iff {α β : Type} {l : List α} {a : α} {f : α → β} {i : Nat} {b : β} :
    ((l ++ [a]).map f)[i]? = some b ↔ i = l.length ∧ f a = b ∨ (l.map f)[i]? = some b := by
  rw [List.map_append, List.map_singleton, getElem?_concat_iff, List.length_map, or_comm]

variable {V : Type}

namespace World

/-- The tasks that are ready or wait. -/
def queue (w : World V) : List TaskRef := w.ready ++ w.waiting

/-! ## Waking -/

section Waking

variable (w : World V)

theorem wake_queue (p : TaskRef → Bool) : (w.wake p).queue.Perm w.queue := by
  have h := (List.filter_append_perm p w.waiting).append_left w.ready
  simpa [queue, wake, List.append_assoc] using h

theorem settle_queue (c : Nat) (o : Outcome V) : (w.settle c o).queue.Perm w.queue := by
  unfold settle
  split
  · exact .refl _
  · exact wake_queue _ _

theorem signal_queue (c : Nat) : (w.signal c).queue.Perm w.queue := by
  unfold signal
  split
  · exact .refl _
  · exact wake_queue _ _

theorem cancel_queue (c : Nat) (interrupt : Bool) :
    (w.cancel c interrupt).1.queue.Perm w.queue := by
  unfold cancel
  split
  · exact (signal_queue _ c).trans (settle_queue _ c .cancelled)
  · exact .refl _

theorem settleRun_queue (c : Nat) (r : RunEnd V) : (w.settleRun c r).queue.Perm w.queue := by
  cases r with
  | panicked => exact .refl _
  | _ => exact settle_queue ..

theorem notifyBatch_queue (b : Nat) : (w.notifyBatch b).queue.Perm w.queue := wake_queue _ _

theorem tellBatch_queue (b : Nat) (r : RunEnd V) : (w.tellBatch b r).queue.Perm w.queue := by
  cases r with
  | returned value =>
    simp only [tellBatch, offer]
    split
    · split
      · exact notifyBatch_queue _ b
      · exact .refl _
    · exact .refl _
  | _ => exact .refl _

theorem countDown_queue (b : Nat) : (w.countDown b).queue.Perm w.queue := by
  unfold countDown
  dsimp only
  split
  · split
    · exact notifyBatch_queue _ b
    · exact .refl _
  · exact .refl _

theorem reportUnwanted_queue (child : Child V) (yield : Yield V) (r : RunEnd V) :
    (w.reportUnwanted child yield r).queue = w.queue := by
  simp [queue, reportUnwanted_frame]

theorem deliver_queue (child : Child V) (r : RunEnd V) :
    (w.deliver child r).queue.Perm w.queue := by
  unfold deliver
  dsimp only
  split
  · rename_i yield _ _
    have h := (w.record (.ended child.cell r)).reportUnwanted_queue child yield r
    exact (settleRun_queue _ _ _).trans (.of_eq h)
  · exact settleRun_queue ..
  · exact settleRun_queue ..
  · exact (countDown_queue _ _).trans (settleRun_queue _ _ _)
  · exact ((countDown_queue _ _).trans (settleRun_queue _ _ _)).trans (tellBatch_queue _ _ _)

theorem release_queue (e : Nat) : (w.release e).queue.Perm w.queue := by
  unfold release
  dsimp only
  split
  · exact wake_queue _ _
  · exact .refl _

theorem endChild_queue (i : Nat) : (w.endChild i).queue.Perm w.queue := by
  unfold endChild
  split
  · exact .refl _
  · exact (release_queue _ _).trans (cancel_queue w _ true)

theorem finish_queue (i : Nat) (child : Child V) (r : RunEnd V) :
    (w.finish i child r).queue.Perm w.queue :=
  (endChild_queue _ i).trans (deliver_queue w child r)

theorem enqueue_queue (r : TaskRef) : (w.enqueue r).queue.Perm (r :: w.queue) := by
  show (w.ready ++ [r] ++ w.waiting).Perm (r :: (w.ready ++ w.waiting))
  rw [List.append_assoc]
  exact List.perm_middle

theorem suspend_queue (r : TaskRef) : (w.suspend r).queue.Perm (r :: w.queue) := by
  show (w.ready ++ (w.waiting ++ [r])).Perm (r :: (w.ready ++ w.waiting))
  rw [← List.append_assoc]
  exact List.perm_append_singleton r _

theorem parkChild_queue {i : Nat} {child : Child V} (s : Stage V)
    (hc : w.children[i]? = some child) : (w.parkChild i s).queue.Perm (.child i :: w.queue) := by
  rw [parkChild_eq s hc]
  split
  · exact enqueue_queue ..
  · exact suspend_queue ..

end Waking

/-! ## Tasks that have not ended -/

/-- Whether a task has not ended. -/
def Live (w : World V) : TaskRef → Prop
  | .child i => (w.children.map (·.hasEnded))[i]? = some false
  | .waiter j => (w.waiters.map fun x => x.stage == .ended)[j]? = some false
  | .watcher e => (w.executors.map fun x => x.closed && x.state == .draining)[e]? = some true

theorem live_child {w : World V} {i : Nat} :
    w.Live (.child i) ↔ ∃ child, w.children[i]? = some child ∧ child.hasEnded = false := by
  simp [Live]

theorem live_waiter {w : World V} {j : Nat} :
    w.Live (.waiter j) ↔ ∃ x, w.waiters[j]? = some x ∧ x.stage ≠ .ended := by
  simp [Live]

theorem live_watcher {w : World V} {e : Nat} :
    w.Live (.watcher e) ↔
      ∃ x, w.executors[e]? = some x ∧ x.closed = true ∧ x.state = .draining := by
  simp [Live]

/-- The state of a run with its tasks in their places. A waiter that was given up may be ready
yet. -/
structure Placed (f : Focus) (w : World V) : Prop where
  nodup : (f.task?.toList ++ w.queue).Nodup
  known : ∀ r ∈ f.task?.toList ++ w.queue,
    w.Live r ∨ ∃ j < w.waiters.length, r = .waiter j
  placed : ∀ r, w.Live r → r ∈ f.task?.toList ++ w.queue

variable {f f' : Focus} {w w' : World V}

theorem live_congr (children : w'.children.map (·.hasEnded) = w.children.map (·.hasEnded))
    (waiters : w'.waiters.map (fun x => x.stage == .ended) =
      w.waiters.map fun x => x.stage == .ended)
    (executors : w'.executors.map (fun x => x.closed && x.state == .draining) =
      w.executors.map fun x => x.closed && x.state == .draining) (r : TaskRef) :
    w'.Live r ↔ w.Live r := by
  cases r with
  | child i => rw [Live, Live, children]
  | waiter j => rw [Live, Live, waiters]
  | watcher e => rw [Live, Live, executors]

theorem live_modifyWaiter {j : Nat} {g : Waiter V → Waiter V} {r : TaskRef} (hr : r ≠ .waiter j) :
    (w.modifyWaiter j g).Live r ↔ w.Live r := by
  cases r with
  | waiter k =>
    have hk : j ≠ k := fun he => hr (he ▸ rfl)
    rw [live_waiter, live_waiter, modifyWaiter, List.getElem?_modify_ne _ _ hk]
  | _ => exact .rfl

theorem live_modifyExecutor {e : Nat} {g : Executor → Executor} {r : TaskRef}
    (hr : r ≠ .watcher e) : (w.modifyExecutor e g).Live r ↔ w.Live r := by
  cases r with
  | watcher k =>
    have hk : e ≠ k := fun he => hr (he ▸ rfl)
    rw [live_watcher, live_watcher, modifyExecutor, List.getElem?_modify_ne _ _ hk]
  | _ => exact .rfl

/-- A waiter that ends is not alive, and nobody else ends with it. -/
theorem live_ended (w : World V) (j : Nat) (r : TaskRef) :
    (w.modifyWaiter j fun x => { x with stage := .ended }).Live r ↔ w.Live r ∧ r ≠ .waiter j := by
  by_cases hr : r = .waiter j
  · subst hr
    rw [live_waiter, modifyWaiter, List.getElem?_modify_eq]
    cases w.waiters[j]? <;> simp
  · exact (live_modifyWaiter hr).trans (by simp [hr])

/-- A watcher whose executor has terminated is not alive, and nobody else ends with it. -/
theorem live_terminated (w : World V) (e : Nat) (r : TaskRef) :
    (w.modifyExecutor e fun x => { x with state := .terminated }).Live r ↔
      w.Live r ∧ r ≠ .watcher e := by
  by_cases hr : r = .watcher e
  · subst hr
    rw [live_watcher, modifyExecutor, List.getElem?_modify_eq]
    cases w.executors[e]? <;> simp
  · exact (live_modifyExecutor hr).trans (by simp [hr])

/-- In the middle of its shutdown an executor has no watcher yet. -/
theorem Steered.not_live_watcher {body : Option Nat} {e : Nat} (h : Steered (.shutting body e) w) :
    ¬ w.Live (.watcher e) := by
  rw [live_watcher]
  rintro ⟨x, hx, hc, -⟩
  exact Bool.noConfusion (((h.steered hx).drains rfl).1.symm.trans hc)

/-- The watcher of a draining executor comes when the executor is closed. -/
theorem live_watched {e : Nat} {x : Executor} (hx : w.executors[e]? = some x)
    (hs : x.state = .draining) (r : TaskRef) :
    (w.modifyExecutor e fun x => { x with closed := true }).Live r ↔ r = .watcher e ∨ w.Live r := by
  by_cases hr : r = .watcher e
  · subst hr
    rw [live_watcher, modifyExecutor, List.getElem?_modify_eq, hx]
    simp [hs]
  · exact (live_modifyExecutor hr).trans (or_iff_right hr).symm

theorem IsOver.not_live {r : TaskRef} (h : w.IsOver r) : ¬ w.Live r := by
  intro hl
  cases r with
  | child i =>
    obtain ⟨child, hc, he⟩ := live_child.mp hl
    exact Bool.noConfusion (he.symm.trans (h child hc))
  | waiter j =>
    obtain ⟨x, hx, he⟩ := live_waiter.mp hl
    exact he (h x hx)
  | watcher e => exact h

namespace Placed

/-- No task comes or goes. -/
theorem stay (h : Placed f w)
    (queue : (f'.task?.toList ++ w'.queue).Perm (f.task?.toList ++ w.queue))
    (live : ∀ r, w'.Live r ↔ w.Live r) (waiters : w.waiters.length ≤ w'.waiters.length) :
    Placed f' w' where
  nodup := queue.nodup_iff.mpr h.nodup
  known r hr := by
    rcases h.known r (queue.mem_iff.mp hr) with hl | ⟨j, hj, he⟩
    · exact .inl ((live r).mpr hl)
    · exact .inr ⟨j, Nat.lt_of_lt_of_le hj waiters, he⟩
  placed r hr := queue.mem_iff.mpr (h.placed r ((live r).mp hr))

/-- A task comes. -/
theorem come (h : Placed f w) {r : TaskRef}
    (queue : (f'.task?.toList ++ w'.queue).Perm (r :: (f.task?.toList ++ w.queue)))
    (new : ¬w.Live r ∧ ∀ j < w.waiters.length, r ≠ .waiter j)
    (live : ∀ r', w'.Live r' ↔ r' = r ∨ w.Live r')
    (waiters : w.waiters.length ≤ w'.waiters.length) : Placed f' w' where
  nodup := by
    refine queue.nodup_iff.mpr (List.nodup_cons.mpr ⟨fun hr => ?_, h.nodup⟩)
    rcases h.known r hr with hl | ⟨j, hj, he⟩
    · exact new.1 hl
    · exact new.2 j hj he
  known r' hr := by
    rcases List.mem_cons.mp (queue.mem_iff.mp hr) with rfl | hr
    · exact .inl ((live _).mpr (.inl rfl))
    · rcases h.known r' hr with hl | ⟨j, hj, he⟩
      · exact .inl ((live r').mpr (.inr hl))
      · exact .inr ⟨j, Nat.lt_of_lt_of_le hj waiters, he⟩
  placed r' hr := by
    refine queue.mem_iff.mpr (List.mem_cons.mpr ?_)
    exact ((live r').mp hr).imp id (h.placed r')

/-- The task whose turn it is goes. -/
theorem go (h : Placed f w) {r : TaskRef} (hf : f.task? = some r) (hf' : f'.task? = none)
    (queue : w'.queue.Perm w.queue) (live : ∀ r', w'.Live r' ↔ w.Live r' ∧ r' ≠ r)
    (waiters : w'.waiters.length = w.waiters.length) : Placed f' w' := by
  have hn : (r :: w.queue).Nodup := by simpa [hf] using h.nodup
  have hm : ∀ r', r' ∈ f'.task?.toList ++ w'.queue ↔ r' ∈ w.queue := by
    intro r'
    rw [hf']
    exact queue.mem_iff
  refine ⟨?_, fun r' hr => ?_, fun r' hr => ?_⟩
  · rw [hf']
    exact queue.nodup_iff.mpr (List.nodup_cons.mp hn).2
  · have hr := (hm r').mp hr
    have hne : r' ≠ r := fun he => (List.nodup_cons.mp hn).1 (he ▸ hr)
    refine (h.known r' (List.mem_append_right _ hr)).imp (fun hl => (live r').mpr ⟨hl, hne⟩) ?_
    rw [waiters]
    exact id
  · obtain ⟨hl, hne⟩ := (live r').mp hr
    rw [hm]
    have hp := h.placed r' hl
    rw [hf] at hp
    exact (List.mem_cons.mp hp).resolve_left hne

/-- A child comes in. -/
theorem addChild (h : Placed f w) (e : Nat) (name : String) (work : Work V) (mark : Option Mark) :
    Placed f (w.addChild e name work mark).1 := by
  refine h.come (r := .child w.children.length) ?_ ⟨?_, by simp⟩ (fun r => ?_)
    (Nat.le_refl _)
  · exact (List.Perm.append_left _ (enqueue_queue _ _)).trans List.perm_middle
  · simp [Live]
  · cases r with
    | child i =>
      refine getElem?_map_concat_iff.trans ?_
      simp [Child.hasEnded, Live]
    | waiter j => exact ⟨.inr, fun hl => hl.resolve_left (by simp)⟩
    | watcher k =>
      show ((w.executors.modify e _).map _)[k]? = _ ↔ _
      rw [map_modify_eq]
      · exact ⟨.inr, fun hl => hl.resolve_left (by simp)⟩
      · exact fun _ _ => rfl

theorem openBatch (h : Placed f w) (e : Nat) (name : String) (work : Nat → Body V → Work V)
    (bodies : List (Body V)) : Placed f (w.openBatch e name work bodies) := by
  have hb := addBatchChildren_induct h e name (work w.batches.length) 0 bodies
    fun _ name _ hp => hp.addChild e name _ none
  exact ⟨hb.nodup, hb.known, hb.placed⟩

/-- A waiter comes in. -/
theorem addWaiter (h : Placed f w) (name : String) (request : Request V) :
    Placed f (w.addWaiter name request) := by
  refine h.come (r := .waiter w.waiters.length) ?_ ⟨?_, fun j hj he => ?_⟩ (fun r => ?_) ?_
  · exact (List.Perm.append_left _ (enqueue_queue _ _)).trans List.perm_middle
  · simp [Live]
  · exact absurd (TaskRef.waiter.inj he) (Nat.ne_of_gt hj)
  · cases r with
    | waiter j =>
      refine getElem?_map_concat_iff.trans (or_congr ?_ .rfl)
      exact ⟨fun hj => congrArg _ hj.1, fun hj => ⟨TaskRef.waiter.inj hj, rfl⟩⟩
    | _ => exact ⟨.inr, fun hl => hl.resolve_left (by simp)⟩
  · exact List.length_append ▸ Nat.le_succ _

/-- A waiter is given up, and struck from those that wait. It may be ready, and is known there as a
waiter. -/
theorem abort (h : Placed f w) (j : Nat) :
    Placed f { w.modifyWaiter j (fun x => { x with stage := .ended }) with
      waiting := w.waiting.filter (· != .waiter j) } := by
  have hsub : (w.ready ++ w.waiting.filter (· != .waiter j)).Sublist w.queue :=
    List.filter_sublist.append_left _
  have hlive := live_ended w j
  refine ⟨h.nodup.sublist (hsub.append_left _), fun r hr => ?_, fun r hr => ?_⟩
  · rcases h.known r ((hsub.append_left _).subset hr) with hl | ⟨k, hk, he⟩
    · by_cases hj : r = .waiter j
      · obtain ⟨x, hx, -⟩ := live_waiter.mp (hj ▸ hl)
        refine .inr ⟨j, ?_, hj⟩
        exact (List.length_modify ..).symm ▸ (List.getElem?_eq_some_iff.mp hx).1
      · exact .inl ((hlive r).mpr ⟨hl, hj⟩)
    · exact .inr ⟨k, (List.length_modify ..).symm ▸ hk, he⟩
  · obtain ⟨hl, hj⟩ := (hlive r).mp hr
    rcases List.mem_append.mp (h.placed r hl) with hm | hm
    · exact List.mem_append_left _ hm
    · refine List.mem_append_right _ (List.mem_append.mpr ?_)
      apply (List.mem_append.mp hm).imp id
      intro hm
      exact List.mem_filter.mpr ⟨hm, by simpa using hj⟩

/-- The child whose turn it is ends. -/
theorem finish (h : Placed f w) {i : Nat} {child : Child V} (hf : f.task? = some (.child i))
    (r : RunEnd V) (hc : w.children[i]? = some child) :
    Placed (.caller none) (w.finish i child r) := by
  refine h.go hf rfl (finish_queue w i child r) (fun r' => ?_)
    (congrArg List.length (finish_frame r hc).2.2.1)
  -- Only this child stops being alive.
  cases r' with
  | child k =>
    rw [live_child, live_child, (finish_frame r hc).2.1]
    constructor
    · rintro ⟨x, hx, he⟩
      obtain ⟨y, hy, ⟨rfl, rfl⟩ | ⟨hne, rfl⟩⟩ := exists_getElem?_of_modify hx
      · cases he
      · exact ⟨⟨_, hy, he⟩, fun heq => hne (TaskRef.child.inj heq).symm⟩
    · rintro ⟨⟨x, hx, he⟩, hne⟩
      have hik : i ≠ k := fun heq => hne (congrArg _ heq.symm)
      exact ⟨x, by simp [hx, hik], he⟩
  | waiter j =>
    rw [Live, (finish_frame r hc).2.2.1]
    exact ⟨fun hl => ⟨hl, by simp⟩, And.left⟩
  | watcher e =>
    rw [Live, finish_executors r hc, map_modify_eq]
    · exact ⟨fun hl => ⟨hl, by simp⟩, And.left⟩
    · exact fun _ _ => rfl

theorem parkChild (h : Placed f w) {i : Nat} {child : Child V} {s : Stage V}
    (hf : f.task? = some (.child i)) (hc : w.children[i]? = some child)
    (he : child.hasEnded = false)
    (hs : ∀ x : Child V, ({ x with stage := s } : Child V).hasEnded = false) :
    Placed (.caller none) (w.parkChild i s) := by
  obtain ⟨-, hexecutors, -, hchildren, hwaiters, -⟩ := parkChild_frame s hc
  refine h.stay ?_ (live_congr ?_ (by rw [hwaiters]) (by rw [hexecutors]))
    (Nat.le_of_eq (congrArg _ hwaiters.symm))
  · rw [hf]
    exact parkChild_queue w s hc
  · rw [hchildren]
    apply map_modify_eq
    intro x hx
    obtain rfl := Option.some.inj (hc.symm.trans hx)
    rw [hs, he]

end Placed

end World

open World

variable {f f' : Focus} {w w' : World V}

theorem Op.placed (op : Op f w f' w') (hs : Steered f w) (h : Placed f w) : Placed f' w' := by
  cases op with
  | create name s =>
    refine h.stay (.refl _) (fun r => ?_) (Nat.le_refl _)
    cases r with
    | watcher e =>
      exact getElem?_map_concat_iff.trans ⟨fun hl => hl.resolve_left (by simp), .inr⟩
    | _ => exact .rfl
  | refuse e =>
    exact h.stay (.refl _) (live_congr rfl rfl (map_modify_eq fun _ _ => rfl)) (Nat.le_refl _)
  | enrol name mark hr hb => exact h.addChild _ name _ mark
  | await name hq => exact h.addWaiter name _
  | abort j => exact h.abort j
  | cancel hg =>
    obtain ⟨-, hexecutors, hchildren, hwaiters, -⟩ := cancel_frame w _ _
    exact h.stay ((cancel_queue w _ _).append_left _)
      (live_congr (by rw [hchildren]) (by rw [hwaiters]) (by rw [hexecutors]))
      (Nat.le_of_eq (congrArg _ hwaiters.symm))
  | @drain _ _ e hr =>
    refine h.stay (.refl _) (live_congr rfl rfl (map_modify_eq fun x hx => ?_)) (Nat.le_refl _)
    obtain ⟨y, hy, hrun⟩ := isRunning_iff.mp hr
    obtain rfl := Option.some.inj (hy.symm.trans hx)
    -- An executor that runs has not closed, so it has no watcher before and after.
    have hc : y.closed ≠ true := fun hc => (hs.steered hx).closed hc hrun
    simp [hc]
  | @close _ _ e x hx h0 =>
    have hc := ((hs.steered hx).drains rfl).1
    refine h.stay ((wake_queue _ _).append_left _) (live_congr rfl rfl ?_) (Nat.le_refl _)
    refine (congrArg (List.map _) (List.modify_modify_eq ..)).trans (map_modify_eq fun y hy => ?_)
    obtain rfl := Option.some.inj (hx.symm.trans hy)
    rw [hc]
    rfl
  | @watch _ _ e x hx h0 =>
    have hd := ((hs.steered hx).drains rfl).2
    refine h.come (r := .watcher e) ?_ ⟨hs.not_live_watcher, by simp⟩ (live_watched hx hd)
      (Nat.le_refl _)
    exact (List.Perm.append_left _ (enqueue_queue _ _)).trans List.perm_middle
  | take hr =>
    exact h.stay (.of_eq (congrArg (· ++ w.waiting) hr.symm)) (fun _ => .rfl) (Nat.le_refl _)
  | @leave _ r hr =>
    refine h.go (r := r) rfl rfl (.refl _) (fun r' => ⟨fun hl => ⟨hl, ?_⟩, And.left⟩) rfl
    rintro rfl
    exact hr.not_live hl
  | clock ht => exact h.stay (wake_queue _ _) (live_congr rfl rfl rfl) (Nat.le_refl _)
  | @start _ i child hc he hm hs hr hd =>
    obtain ⟨-, hexecutors, hwaiters, -, hready, hwaiting, -⟩ := countRun_frame w i child
    refine h.stay ?_ (live_congr ?_ ?_ ?_) (Nat.le_of_eq (congrArg _ hwaiters.symm))
    · exact .of_eq (congrArg _ (congrArg₂ _ hready hwaiting))
    · refine (congrArg (List.map _) (countRun_children w i child)).trans ?_
      exact map_modify_eq fun _ _ => rfl
    · exact congrArg (List.map _) hwaiters
    · exact congrArg (List.map _) hexecutors
  | pause rest hc he ho hp => exact h.parkChild rfl hc he fun _ => rfl
  | sleep hc he hp hs hk => exact h.parkChild rfl hc he (Child.hasEnded_of_sleep hs)
  | yield hc he hp hk =>
    refine h.stay (enqueue_queue _ _) (live_congr (map_modify_eq fun x hx => ?_) rfl rfl)
      (Nat.le_refl _)
    obtain rfl := Option.some.inj (hc.symm.trans hx)
    exact he.symm
  | @finish _ i child r hc he hr hk =>
    exact Placed.finish (f := .caller (some i)) (w := w.modifyCell child.cell (·.leave r))
      ⟨h.nodup, h.known, h.placed⟩ rfl r hc
  | stop hc he hb => exact h.finish rfl _ hc
  | openBatch name hr hw hn => exact h.openBatch _ name _ _
  | grant count =>
    rw [addCancelledCells_cells]
    exact ⟨h.nodup, h.known, h.placed⟩
  | wait hx he hq hb hc hd =>
    refine h.stay (suspend_queue _ _) (live_congr rfl (map_modify_eq fun y hy => ?_) rfl)
      (Nat.le_of_eq (List.length_modify ..).symm)
    obtain rfl := Option.some.inj (hx.symm.trans hy)
    exact (beq_eq_false_iff_ne.mpr he.ne_ended).symm
  | @answer _ j =>
    exact h.go (r := .waiter j) rfl rfl (.refl _) (live_ended w j) (List.length_modify ..)
  | linger hd => exact h.stay (suspend_queue _ _) (live_congr rfl rfl rfl) (Nat.le_refl _)
  | @terminate _ e hd =>
    exact h.go (r := .watcher e) rfl rfl (wake_queue _ _) (live_terminated w e) rfl
  | _ => exact ⟨h.nodup, h.known, h.placed⟩

theorem Reached.placed (h : Reached f w) : Placed f w := by
  refine h.induct (P := Placed) (fun jumps => ?_) fun hr op hw => op.placed hr.steered hw
  refine ⟨.nil, fun r hr => by simp [queue, World.start, Focus.task?] at hr, fun r hr => ?_⟩
  cases r <;> simp [Live, World.start] at hr

end TimedTasks

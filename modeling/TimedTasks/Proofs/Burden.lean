import TimedTasks.Proofs.Passage
import TimedTasks.Proofs.Rousing
/-!
What is left to do while the clock stands still. A task that is ready or waits can take some more
turns, and the steps that its body has left can make other tasks ready. A periodic task can start
two more runs at most: one for which it is late, and one for which it is due now. The watcher of an
executor takes two turns at most. The burden of a state is the sum of all this. A call raises it by
the load of the call at most, and whatever else happens in a turn raises it by nothing.
-/

namespace TimedTasks

variable {V : Type}

/-- The turns that a child in a stage can take until a time comes that is yet to come. -/
def Stage.turnsLeft (now : Instant) : Stage V → Nat
  | .created => 2
  | .scheduled due => if now < due then 1 else 2
  | .suspended (.time t) _ => if now < t then 1 else 2
  | .suspended (.cell ..) _ => 2
  | .suspended .forever _ | .stranded => 1
  | .ended => 0

/-- How many runs a periodic task can start now: one for which it is late, and one for which it is
due now. -/
def startsLeft (now due : Instant) : Nat :=
  if now < due then 0 else if due = now then 1 else 2

/-- What the bodies of a task can make ready if it can start so many runs. -/
def Work.load (starts : Nat) : Work V → Nat
  | .periodic _ runs => starts * Body.loads runs
  | .once _ body | .delayed _ body | .oneOfAll _ body | .oneOfAny _ body => body.load

/-- What they can make ready after the first of these runs. -/
def Work.loadAfter (starts : Nat) : Work V → Nat
  | .periodic _ runs => (starts - 1) * Body.loads runs
  | _ => 0

/-- What a child can still do that can start so many runs, if it is periodic. The run that is under
way while its body is suspended is one of them. -/
def Child.burden (now : Instant) (starts : Nat) (child : Child V) : Nat :=
  child.stage.turnsLeft now +
    match child.stage with
    | .created | .scheduled _ => child.work.load starts
    | .suspended _ rest => Step.loads rest + child.work.loadAfter starts
    | .stranded | .ended => 0

/-- What a waiter can still do. One that was given up may have a turn yet. -/
def Waiter.burden (x : Waiter V) : Nat :=
  match x.stage with
  | .created => x.load
  | .waiting .. | .ended => 1

theorem Waiter.burden_pos (x : Waiter V) : 1 ≤ x.burden := by
  unfold Waiter.burden Waiter.load
  cases hs : x.stage with
  | created =>
    cases hq : x.request <;> dsimp only <;> omega
  | _ => exact Nat.le_refl _

namespace World

variable {f f' : Focus} {w w' : World V}

/-- How many runs the periodic task of a cell can start now. -/
def startsLeft (w : World V) (c : Nat) : Nat :=
  TimedTasks.startsLeft w.now (((w.markOf? c).map (·.due)).getD w.now)

/-- What a child or a waiter can still do. -/
def burdenOf (w : World V) : TaskRef → Nat
  | .child i =>
    (w.children[i]?.map fun child => child.burden w.now (w.startsLeft child.cell)).getD 0
  | .waiter j => (w.waiters[j]?.map Waiter.burden).getD 0
  | .watcher _ => 0

/-- The turns that the watcher of an executor can take. It takes one in vain before it waits, unless
the last child has ended by then. -/
def watchesLeft (w : World V) (e : Nat) : Nat :=
  match w.stateOf? e with
  | some .running => 2
  | some .draining => if w.isDrained e = true ∨ .watcher e ∈ w.waiting then 1 else 2
  | some .terminated | none => 0

/-- What is left to do. -/
def burden (w : World V) : Nat :=
  total w.burdenOf w.queue + total w.watchesLeft (List.range w.executors.length)

/-! ## Sums -/

section Sums

variable {α : Type} {load load' : α → Nat} {l l' : List α}

theorem total_append (l l' : List α) : total load (l ++ l') = total load l + total load l' := by
  induction l with
  | nil => exact (Nat.zero_add _).symm
  | cons a l ih =>
    show load a + total load (l ++ l') = load a + total load l + total load l'
    rw [ih, Nat.add_assoc]

theorem total_perm (h : l.Perm l') : total load l = total load l' := by
  induction h with
  | nil => rfl
  | cons a _ ih => exact congrArg (load a + ·) ih
  | swap a b l => exact Nat.add_left_comm ..
  | trans _ _ ih ih' => exact ih.trans ih'

theorem total_sublist (h : l.Sublist l') : total load l ≤ total load l' := by
  induction h with
  | slnil => exact Nat.le_refl _
  | cons a _ ih => exact Nat.le_trans ih (Nat.le_add_left ..)
  | cons_cons a _ ih => exact Nat.add_le_add_left ih _

theorem total_le (h : ∀ a ∈ l, load a ≤ load' a) : total load l ≤ total load' l := by
  induction l with
  | nil => exact Nat.le_refl _
  | cons a l ih =>
    have hrest := ih fun b hb => h b (List.mem_cons_of_mem _ hb)
    exact Nat.add_le_add (h a List.mem_cons_self) hrest

theorem total_le_length {n : Nat} (h : ∀ a ∈ l, load a ≤ n) : total load l ≤ l.length * n := by
  induction l with
  | nil => exact Nat.zero_le _
  | cons a l ih =>
    rw [List.length_cons, Nat.succ_mul, Nat.add_comm]
    exact Nat.add_le_add (h a List.mem_cons_self) (ih fun b hb => h b (List.mem_cons_of_mem _ hb))

theorem total_lt (h : ∀ a ∈ l, load a ≤ load' a) {a : α} (ha : a ∈ l) (hlt : load a < load' a) :
    total load l < total load' l := by
  obtain ⟨l₁, l₂, rfl⟩ := List.append_of_mem ha
  have h₁ := total_le (l := l₁) fun b hb => h b (List.mem_append_left _ hb)
  have h₂ := total_le (l := l₂) fun b hb =>
    h b (List.mem_append_right _ (List.mem_cons_of_mem _ hb))
  rw [total_append, total_append, total, total]
  omega

theorem total_congr (h : ∀ a ∈ l, load a = load' a) : total load l = total load' l :=
  Nat.le_antisymm (total_le fun a ha => Nat.le_of_eq (h a ha))
    (total_le fun a ha => Nat.le_of_eq (h a ha).symm)

end Sums

/-! ## Watchers -/

theorem watchesLeft_le (w : World V) (e : Nat) : w.watchesLeft e ≤ 2 := by
  unfold watchesLeft
  split
  · exact Nat.le_refl _
  · split <;> decide
  · exact Nat.zero_le _
  · exact Nat.zero_le _

end World

open World

variable {f f' : Focus} {w w' : World V}

theorem Op.watchesLeft_le (op : Op f w f' w') (hr : Reached f w) {e : Nat}
    (he : e < w.executors.length) : w'.watchesLeft e ≤ w.watchesLeft e := by
  have hx : w.executors[e]? = some w.executors[e] := List.getElem?_eq_getElem he
  obtain ⟨y, hy, hl⟩ := op.later.executors e _ hx
  have hrank := hl.rank
  have hs : w.stateOf? e = some w.executors[e].state := by rw [stateOf?, hx]; rfl
  have hs' : w'.stateOf? e = some y.state := by rw [stateOf?, hy]; rfl
  cases hstate : w.executors[e].state with
  | running =>
    have htwo : w.watchesLeft e = 2 := by rw [watchesLeft, hs, hstate]
    exact htwo ▸ w'.watchesLeft_le e
  | draining =>
    rw [hstate] at hrank
    cases hstate' : y.state with
    | running => rw [hstate'] at hrank; exact absurd hrank (by decide)
    | terminated => rw [watchesLeft, hs', hstate']; exact Nat.zero_le _
    | draining =>
      rw [watchesLeft, watchesLeft, hs, hs', hstate, hstate']
      dsimp only
      -- One that is drained, or has a watcher that waits, stays so.
      have hstays : (w.isDrained e = true ∨ .watcher e ∈ w.waiting) →
          w'.isDrained e = true ∨ .watcher e ∈ w'.waiting := by
        rintro (hd | hm)
        · exact .inl (op.stays_drained hr.steered hd)
        · cases hd : w'.isDrained e with
          | true => exact .inl rfl
          | false => exact .inr (op.lingers hr hm hd)
      split
      · split
        · exact Nat.le_refl _
        · exact Nat.le_succ _
      · rename_i hn
        exact Nat.le_of_eq (if_neg fun h => hn (hstays h)).symm
  | terminated =>
    rw [hstate] at hrank
    cases hstate' : y.state with
    | terminated => rw [watchesLeft, hs', hstate']; exact Nat.zero_le _
    | _ => rw [hstate'] at hrank; exact absurd hrank (by decide)

theorem Ops.watchesLeft_le (ops : Ops f w f' w') (hr : Reached f w) {e : Nat}
    (he : e < w.executors.length) : w'.watchesLeft e ≤ w.watchesLeft e :=
  (ops.induct (P := fun _ w' => e < w'.executors.length ∧ w'.watchesLeft e ≤ w.watchesLeft e) hr
    ⟨he, Nat.le_refl _⟩ fun hr op ⟨he', hle⟩ =>
      ⟨Nat.lt_of_lt_of_le he' (op.later.executors.length_le),
        Nat.le_trans (op.watchesLeft_le hr he') hle⟩).2

namespace World

/-! ## Those in line -/

/-- The tasks in line are there, and the children have their cells. -/
structure InLine (w : World V) : Prop where
  child : ∀ i, .child i ∈ w.queue → ∃ child, w.children[i]? = some child
  waiter : ∀ j, .waiter j ∈ w.queue → ∃ x, w.waiters[j]? = some x
  cell : ∀ (i : Nat) (child : Child V), w.children[i]? = some child → child.cell < w.cells.length

theorem InLine.of_reached (hr : Reached f w) : w.InLine where
  child i hm := by
    have hknown := hr.placed.known _ (List.mem_append_right _ hm)
    obtain ⟨child, hc, -⟩ := live_child.mp (hknown.resolve_right (by simp))
    exact ⟨child, hc⟩
  waiter j hm := by
    rcases hr.placed.known _ (List.mem_append_right _ hm) with hl | ⟨k, hk, he⟩
    · obtain ⟨x, hx, -⟩ := live_waiter.mp hl
      exact ⟨x, hx⟩
    · obtain rfl := TaskRef.waiter.inj he
      exact ⟨_, List.getElem?_eq_getElem hk⟩
  cell _ _ := hr.owned.cell_lt

theorem startsLeft_eq (clock : w'.clock = w.clock) {c : Nat} (mark : w'.markOf? c = w.markOf? c) :
    w'.startsLeft c = w.startsLeft c := by
  have hnow : w'.now = w.now := congrArg (·.elapsed.nanos) clock
  rw [startsLeft, startsLeft, mark, hnow]

/-- A task in line has as much to do as before if it was left alone. -/
theorem InLine.burdenOf_eq (h : w.InLine) {r : TaskRef} (hm : r ∈ w.queue)
    (clock : w'.clock = w.clock)
    (child : ∀ i child, r = .child i → w.children[i]? = some child →
      w'.children[i]? = some child ∧ w'.markOf? child.cell = w.markOf? child.cell)
    (waiter : ∀ j x, r = .waiter j → w.waiters[j]? = some x → w'.waiters[j]? = some x) :
    w'.burdenOf r = w.burdenOf r := by
  cases r with
  | child i =>
    obtain ⟨x, hx⟩ := h.child i hm
    obtain ⟨hx', hmark⟩ := child i x rfl hx
    have hnow : w'.now = w.now := congrArg (·.elapsed.nanos) clock
    have hstarts := startsLeft_eq clock hmark
    simp only [burdenOf, hx, hx', Option.map_some, Option.getD_some, hnow, hstarts]
  | waiter j =>
    obtain ⟨x, hx⟩ := h.waiter j hm
    rw [burdenOf, burdenOf, hx, waiter j x rfl hx]
  | watcher e => rfl

/-- Nothing happened but that tasks were woken, cells settled and executors changed. -/
structure SameWork (w w' : World V) : Prop where
  clock : w'.clock = w.clock
  executors : w'.executors.length = w.executors.length
  children : w'.children = w.children
  waiters : w'.waiters = w.waiters
  marks : ∀ c, w'.markOf? c = w.markOf? c
  queue : ∀ load : TaskRef → Nat, (∀ e, load (.watcher e) = 0) →
    total load w'.queue = total load w.queue

namespace SameWork

theorem refl (w : World V) : SameWork w w := ⟨rfl, rfl, rfl, rfl, fun _ => rfl, fun _ _ => rfl⟩

theorem trans {w'' : World V} (h : SameWork w w') (h' : SameWork w' w'') : SameWork w w'' :=
  ⟨h'.clock.trans h.clock, h'.executors.trans h.executors, h'.children.trans h.children,
    h'.waiters.trans h.waiters, fun c => (h'.marks c).trans (h.marks c),
    fun load hload => (h'.queue load hload).trans (h.queue load hload)⟩

/-- The tasks in line changed places at most. -/
theorem of_perm (clock : w'.clock = w.clock)
    (executors : w'.executors.length = w.executors.length) (children : w'.children = w.children)
    (waiters : w'.waiters = w.waiters) (marks : ∀ c, w'.markOf? c = w.markOf? c)
    (queue : w'.queue.Perm w.queue) : SameWork w w' :=
  ⟨clock, executors, children, waiters, marks, fun _ _ => total_perm queue⟩

theorem burdenOf_eq (h : SameWork w w') (hin : w.InLine) {r : TaskRef} (hm : r ∈ w.queue) :
    w'.burdenOf r = w.burdenOf r :=
  hin.burdenOf_eq hm h.clock (fun _ _ _ hc => ⟨h.children ▸ hc, h.marks _⟩)
    fun _ _ _ hx => h.waiters ▸ hx

theorem total_burdenOf (h : SameWork w w') (hin : w.InLine) :
    total w'.burdenOf w'.queue = total w.burdenOf w.queue := by
  rw [h.queue _ fun _ => rfl]
  exact total_congr fun _ hm => h.burdenOf_eq hin hm

end SameWork

theorem modifyExecutor_sameWork (w : World V) (e : Nat) (g : Executor → Executor) :
    SameWork w (w.modifyExecutor e g) :=
  .of_perm rfl (List.length_modify ..) rfl rfl (fun _ => rfl) (.refl _)

theorem cancel_sameWork (w : World V) (c : Nat) (interrupt : Bool) :
    SameWork w (w.cancel c interrupt).1 := by
  obtain ⟨hclock, hexecutors, hchildren, hwaiters, -⟩ := w.cancel_frame c interrupt
  exact .of_perm hclock (congrArg _ hexecutors) hchildren hwaiters
    (fun _ => markOf?_modify (w.cancel_cells c interrupt) fun cell => cell.cancelBy_mark _)
    (w.cancel_queue c interrupt)

theorem cancelAll_sameWork (w : World V) (cs : List Nat) : SameWork w (w.cancelAll cs).1 := by
  induction cs generalizing w with
  | nil => exact .refl w
  | cons c cs ih => exact (w.cancel_sameWork c true).trans (ih _)

theorem signal_sameWork (w : World V) (c : Nat) : SameWork w (w.signal c) := by
  obtain ⟨hclock, hexecutors, hchildren, hwaiters, -⟩ := w.signal_frame c
  exact .of_perm hclock (congrArg _ hexecutors) hchildren hwaiters
    (fun _ => markOf?_modify (w.signal_cells c) fun _ => rfl) (w.signal_queue c)

theorem signalAll_sameWork (w : World V) (cs : List Nat) : SameWork w (w.signalAll cs) := by
  induction cs generalizing w with
  | nil => exact .refl w
  | cons c cs ih => exact (w.signal_sameWork c).trans (ih _)

theorem applyPolicies_sameWork (w : World V) (s : Settings) (is : List Nat) :
    SameWork w (w.applyPolicies s is) := by
  induction is generalizing w with
  | nil => exact .refl w
  | cons i is ih =>
    rw [applyPolicies_cons]
    refine SameWork.trans ?_ (ih _)
    rcases w.seeTo_cases s i with ⟨h, -⟩ | ⟨child, notices, -, h⟩
    · rw [h]
      exact .refl w
    · have hcancel := w.cancel_sameWork child.cell false
      rw [h]
      exact ⟨hcancel.clock, hcancel.executors, hcancel.children, hcancel.waiters, hcancel.marks,
        hcancel.queue⟩

theorem markTerminated_sameWork (w : World V) (e : Nat) : SameWork w (w.markTerminated e) :=
  .of_perm rfl (List.length_modify ..) rfl rfl (fun _ => rfl) (wake_queue _ _)

theorem beginDrain_sameWork (w : World V) (e : Nat) : SameWork w (w.beginDrain e) := by
  unfold beginDrain
  dsimp only
  refine (w.modifyExecutor_sameWork e fun x => { x with closed := true }).trans ?_
  split
  · exact markTerminated_sameWork _ e
  · refine ⟨rfl, rfl, rfl, rfl, fun _ => rfl, fun load hload => ?_⟩
    rw [total_perm (enqueue_queue ..), total, hload, Nat.zero_add]

theorem beginShutdown_sameWork (w : World V) (e : Nat) : SameWork w (w.beginShutdown e).1 := by
  cases hrun : w.isRunning e with
  | true =>
    rw [beginShutdown_of_running hrun]
    exact .of_perm rfl (List.length_modify ..) rfl rfl (fun _ => rfl) (.refl _)
  | false =>
    rw [beginShutdown_of_not_running hrun]
    exact .of_perm rfl rfl rfl rfl (fun _ => rfl) (.refl _)

theorem report_sameWork (w : World V) (n : Notice) : SameWork w (w.report n) :=
  .of_perm rfl rfl rfl rfl (fun _ => rfl) (.refl _)

theorem shutdown_sameWork (w : World V) (e : Nat) : SameWork w (w.shutdown e) := by
  have hbegun := (w.report_sameWork (.shutdownCalled (w.nameOf e))).trans
    (beginShutdown_sameWork _ e)
  unfold shutdown
  dsimp only
  generalize (w.report (.shutdownCalled (w.nameOf e))).beginShutdown e = p at hbegun ⊢
  split
  · exact ((hbegun.trans (report_sameWork _ _)).trans (applyPolicies_sameWork _ _ _)).trans
      (beginDrain_sameWork _ e)
  · exact hbegun

theorem shutdownNow_sameWork (w : World V) (e : Nat) : SameWork w (w.shutdownNow e) := by
  have hbegun := (w.report_sameWork (.shutdownNowCalled (w.nameOf e))).trans
    (beginShutdown_sameWork _ e)
  unfold shutdownNow
  dsimp only
  split
  · exact (((hbegun.trans (cancelAll_sameWork _ _)).trans (signalAll_sameWork _ _)).trans
      (report_sameWork _ _)).trans (beginDrain_sameWork _ e)
  · exact ((hbegun.trans (cancelAll_sameWork _ _)).trans (signalAll_sameWork _ _)).trans
      (report_sameWork _ _)

end World

/-! ## Periodic tasks and their marks -/

namespace World

/-- A periodic child is due again after an interval, and has a mark that counts from the time at
which some executor was made. -/
def TimedChild (w : World V) (child : Child V) : Prop :=
  ∀ pace runs, child.work = .periodic pace runs → pace.interval.nanos ≠ 0 ∧
    ∃ m, w.markOf? child.cell = some m ∧ ∃ x ∈ w.executors, x.origin = m.origin

def Timed (w : World V) : Prop :=
  ∀ (i : Nat) (child : Child V), w.children[i]? = some child → w.TimedChild child

theorem TimedChild.of_kind {child : Child V} (hk : child.work.kind ≠ .periodic) :
    w.TimedChild child := fun pace runs hw => absurd (by rw [hw]; rfl) hk

end World

/-- A due time that is set anew counts from where it counted. -/
theorem Op.markOrigin_eq (op : Op f w f' w') (ho : Owned w) {i : Nat} {child : Child V}
    (hc : w.children[i]? = some child) :
    (w'.markOf? child.cell).map (·.origin) = (w.markOf? child.cell).map (·.origin) := by
  by_cases hf : f = .turn (.child i) ∧ f' = .turn (.child i)
  · obtain ⟨rfl, rfl⟩ := hf
    cases op with
    | quiet futures waiters threads log notices hf => rfl
    | refuse e => rfl
    | @cancel _ _ c interrupt hg =>
      rw [markOf?_modify (w.cancel_cells c interrupt) fun cell => cell.cancelBy_mark _]
    | @drop _ _ other on rest hy he hs =>
      exact congrArg _ (markOf?_modify (c := other.cell) rfl fun _ => rfl)
    | @remark _ _ other next hy hk =>
      obtain rfl := Option.some.inj (hy.symm.trans hc)
      rw [markOf?_remark, Option.map_map]
      rfl
  · rw [op.markOf?_eq ho (fun h h' => hf ⟨h, h'⟩) hc]

theorem Op.timedChild (op : Op f w f' w') (ho : Owned w) {i : Nat} {child child' : Child V}
    (hc : w.children[i]? = some child) (h : w.TimedChild child)
    (hc' : w'.children[i]? = some child') : w'.TimedChild child' := by
  obtain ⟨y, hy, hl⟩ := op.later.children i child hc
  obtain rfl := Option.some.inj (hy.symm.trans hc')
  intro pace runs hw
  obtain ⟨hpace, m, hm, x, hx, horigin⟩ := h pace runs (hl.work ▸ hw)
  have hmark := op.markOrigin_eq ho hc
  rw [hm, ← hl.cell] at hmark
  obtain ⟨m', hm', hmm⟩ := Option.map_eq_some_iff.mp hmark
  obtain ⟨e, he⟩ := List.mem_iff_getElem?.mp hx
  obtain ⟨x', hx', hlx⟩ := op.later.executors e x he
  exact ⟨hpace, m', hm', x', List.mem_of_getElem? hx', by rw [hlx.origin, horigin, hmm]⟩

/-- The children that were there stay timed. -/
theorem Ops.timed (ops : Ops f w f' w') (hr : Reached f w) (h : w.Timed)
    (new : ∀ (i : Nat) (child : Child V), w.children.length ≤ i →
      w'.children[i]? = some child → w'.TimedChild child) : w'.Timed := by
  intro i child' hc'
  by_cases hi : i < w.children.length
  · have hc := List.getElem?_eq_getElem hi
    obtain ⟨child, hchild, htimed⟩ := ops.induct
      (P := fun _ w' => ∃ child, w'.children[i]? = some child ∧ w'.TimedChild child) hr
      ⟨_, hc, h i _ hc⟩ fun hr op ⟨child, hchild, htimed⟩ => by
        obtain ⟨y, hy, -⟩ := op.later.children i child hchild
        exact ⟨y, hy, op.timedChild hr.owned hchild htimed hy⟩
    exact Option.some.inj (hchild.symm.trans hc') ▸ htimed
  · exact new i child' (Nat.le_of_not_lt hi) hc'

/-! ## Pieces of a turn -/

/-- In a run, some operations lead from one state to another while the clock stands still. They
raise the burden by so much at most, and let no periodic task start more runs. -/
structure Toil (n : Nat) (f : Focus) (w : World V) (f' : Focus) (w' : World V) : Prop where
  ops : Ops f w f' w'
  clock : w'.clock = w.clock
  timed : w.Timed → w'.Timed
  starts : ∀ c < w.cells.length, w'.startsLeft c ≤ w.startsLeft c
  burden : w'.burden ≤ w.burden + n

def Toils (n : Nat) (f : Focus) (w : World V) (f' : Focus) (w' : World V) : Prop :=
  Reached f w → Toil n f w f' w'

variable {f'' : Focus} {w'' : World V} {m n : Nat}

namespace Toils

theorem refl : Toils 0 f w f w := fun _ =>
  ⟨.refl, rfl, id, fun _ _ => Nat.le_refl _, Nat.le_refl _⟩

theorem trans (h : Toils m f w f' w') (h' : Toils n f' w' f'' w'') :
    Toils (m + n) f w f'' w'' := by
  intro hr
  obtain ⟨hops, hclock, htimed, hstarts, hburden⟩ := h hr
  obtain ⟨hops', hclock', htimed', hstarts', hburden'⟩ := h' (hr.ops hops)
  refine ⟨hops.trans hops', hclock'.trans hclock, fun ht => htimed' (htimed ht), fun c hc => ?_, ?_⟩
  · have hc' := Nat.lt_of_lt_of_le hc hops.later.cells.length_le
    exact Nat.le_trans (hstarts' c hc') (hstarts c hc)
  · omega

theorem mono (h : Toils m f w f' w') (hn : m ≤ n) : Toils n f w f' w' := fun hr =>
  { h hr with burden := Nat.le_trans (h hr).burden (Nat.add_le_add_left hn _) }

theorem known (h : Reached f w → Toils n f w f' w') : Toils n f w f' w' := fun hr => h hr hr

theorem reached (h : Toils n f w f' w') (hr : Reached f w) : Reached f' w' := hr.ops (h hr).ops

/-- What comes in line is known, and how many executors are made. -/
theorem of_total {k : Nat} (h : Reached f w → Ops f w f' w') (clock : w'.clock = w.clock)
    (executors : w'.executors.length = w.executors.length + k)
    (new : ∀ (i : Nat) (child : Child V), w.children.length ≤ i →
      w'.children[i]? = some child → w'.TimedChild child)
    (starts : ∀ c < w.cells.length, w'.startsLeft c ≤ w.startsLeft c)
    (tasks : w.InLine → total w'.burdenOf w'.queue ≤ total w.burdenOf w.queue + n) :
    Toils (n + k * 2) f w f' w' := by
  intro hr
  have hops := h hr
  refine ⟨hops, clock, fun ht => hops.timed hr ht new, starts, ?_⟩
  have hwatches : total w'.watchesLeft (List.range w'.executors.length) ≤
      total w.watchesLeft (List.range w.executors.length) + k * 2 := by
    rw [executors, List.range_add, total_append]
    refine Nat.add_le_add (total_le fun e he => hops.watchesLeft_le hr (List.mem_range.mp he)) ?_
    have hnew := total_le_length (l := (List.range k).map (w.executors.length + ·))
      fun e _ => w'.watchesLeft_le e
    rwa [List.length_map, List.length_range] at hnew
  have htasks := tasks (.of_reached hr)
  unfold World.burden
  omega

theorem same (h : Reached f w → Ops f w f' w') (hs : SameWork w w') : Toils 0 f w f' w' := by
  refine of_total (k := 0) h hs.clock hs.executors (fun i child hi hc => ?_) (fun c _ => ?_)
    fun hin => ?_
  · rw [hs.children] at hc
    exact absurd (List.getElem?_eq_some_iff.mp hc).1 (Nat.not_lt_of_le hi)
  · exact Nat.le_of_eq (startsLeft_eq hs.clock (hs.marks c))
  · exact Nat.le_of_eq (hs.total_burdenOf hin)

end Toils

namespace World

/-! ## Tasks that are handed in -/

theorem startsLeft_le (w : World V) (c : Nat) : w.startsLeft c ≤ 2 := by
  unfold startsLeft TimedTasks.startsLeft
  split
  · decide
  · split <;> decide

theorem load_le (work : Work V) {starts : Nat} (h : starts ≤ 2) :
    work.load starts ≤ work.load 2 := by
  cases work with
  | periodic pace runs => exact Nat.mul_le_mul_right _ h
  | _ => exact Nat.le_refl _

theorem markOf?_of_grown {c : Nat} (h : w.cells <+: w'.cells) (hc : c < w.cells.length) :
    w'.markOf? c = w.markOf? c := by
  obtain ⟨l, hl⟩ := h
  rw [markOf?, markOf?, ← hl, List.getElem?_append_left hc]

theorem InLine.addChild (h : w.InLine) (e : Nat) (name : String) (work : Work V)
    (mark : Option Mark) : (w.addChild e name work mark).1.InLine where
  child i hm := by
    rcases List.mem_cons.mp ((enqueue_queue _ _).mem_iff.mp hm) with hi | hm
    · obtain rfl := TaskRef.child.inj hi
      exact ⟨_, List.getElem?_concat_length⟩
    · obtain ⟨child, hc⟩ := h.child i hm
      exact ⟨child, getElem?_concat_iff.mpr (.inl hc)⟩
  waiter j hm := by
    rcases List.mem_cons.mp ((enqueue_queue _ _).mem_iff.mp hm) with hj | hm
    · cases hj
    · exact h.waiter j hm
  cell i child hc := by
    have hlen : (w.addChild e name work mark).1.cells.length = w.cells.length + 1 :=
      List.length_append
    rcases getElem?_concat_iff.mp hc with hc | ⟨-, rfl⟩
    · exact hlen ▸ Nat.lt_succ_of_lt (h.cell i child hc)
    · exact hlen ▸ Nat.lt_succ_self _

/-- A child that comes in has two turns and the load of its work before it. -/
theorem InLine.addChild_total (h : w.InLine) (e : Nat) (name : String) (work : Work V)
    (mark : Option Mark) :
    total (w.addChild e name work mark).1.burdenOf (w.addChild e name work mark).1.queue ≤
      total w.burdenOf w.queue + (2 + work.load 2) := by
  have hqueue : (w.addChild e name work mark).1.queue.Perm
      (.child w.children.length :: w.queue) := enqueue_queue _ _
  have hkept : ∀ r ∈ w.queue, (w.addChild e name work mark).1.burdenOf r = w.burdenOf r :=
    fun r hm => h.burdenOf_eq hm rfl
      (fun i child _ hc => ⟨getElem?_concat_iff.mpr (.inl hc),
        markOf?_of_grown (List.prefix_append ..) (h.cell i child hc)⟩) fun _ _ _ => id
  have hnew : (w.addChild e name work mark).1.burdenOf (.child w.children.length) ≤
      2 + work.load 2 := by
    rw [burdenOf, show (w.addChild e name work mark).1.children[w.children.length]? = some _ from
      List.getElem?_concat_length]
    exact Nat.add_le_add_left (load_le work (startsLeft_le ..)) _
  rw [total_perm hqueue, total, total_congr hkept, Nat.add_comm]
  exact Nat.add_le_add_left hnew _

theorem reject_sameWork (w : World V) (e : Nat) : SameWork w (w.reject e).1 :=
  (w.modifyExecutor_sameWork e _).trans (report_sameWork _ _)

theorem enrol_toils (e : Nat) (name : String) (work : Work V) {mark : Option Mark} {b : Option Nat}
    (hb : work.batch? = none)
    (ht : ∀ pace runs, work = .periodic pace runs → pace.interval.nanos ≠ 0 ∧
      ∃ due, mark = some (.ofInstant (w.originOf e) due)) :
    Toils (2 + work.load 2) (.caller b) w (.caller b) (w.enrol e name work mark).1 := by
  have h := enrol_leads (w := w) (b := b) e name mark hb
  unfold enrol at h ⊢
  split at h
  · rename_i hrun
    rw [if_pos hrun]
    have hstarts : ∀ c < w.cells.length,
        (w.addChild e name work mark).1.startsLeft c ≤ w.startsLeft c := fun c hc => by
      have hmark : (w.addChild e name work mark).1.markOf? c = w.markOf? c :=
        markOf?_of_grown (List.prefix_append ..) hc
      rw [World.startsLeft, hmark]
      exact Nat.le_refl _
    refine .of_total (k := 0) h.ops rfl (List.length_modify ..) (fun i child hi hc => ?_) hstarts
      fun hin => hin.addChild_total e name work mark
    -- The only new child is this one.
    rcases getElem?_concat_iff.mp hc with hc | ⟨-, rfl⟩
    · exact absurd (List.getElem?_eq_some_iff.mp hc).1 (Nat.not_lt_of_le hi)
    · intro pace runs hw
      obtain ⟨hpace, due, rfl⟩ := ht pace runs hw
      obtain ⟨x, hx, -⟩ := isRunning_iff.mp hrun
      refine ⟨hpace, _, congrArg (Option.bind · _) List.getElem?_concat_length, _,
        List.mem_of_getElem? ((List.getElem?_modify_eq ..).trans (congrArg _ hx)), ?_⟩
      simp [Mark.ofInstant, originOf, hx]
  · rename_i hrun
    rw [if_neg hrun]
    exact (Toils.same h.ops (w.reject_sameWork e)).mono (Nat.zero_le _)

theorem nameFuture_sameWork (w : World V) (name : String) (h : Handle) :
    SameWork w (w.nameFuture name h) :=
  .of_perm rfl rfl rfl rfl (fun _ => rfl) (.refl _)

theorem accepted_toils (name : String) (kind : HandleKind) {r : World V × Except TaskError Nat}
    {n : Nat} (h : Toils n f w f r.1) (hc : ∀ c, r.2 = .ok c → c < r.1.cells.length) :
    Toils n f w f (accepted name kind r).1 := by
  obtain ⟨w', c | e⟩ := r
  · exact h
  · exact h.trans (.same (nameFuture_leads name (hc _ rfl)).ops (nameFuture_sameWork ..))

theorem schedule_toils (e : Nat) (name : String) (delay : Duration) (body : Body V)
    {b : Option Nat} :
    Toils (2 + body.load) (.caller b) w (.caller b) (w.schedule e name delay body).1 := by
  unfold schedule
  split
  · exact Toils.refl.mono (Nat.zero_le _)
  · rename_i due _
    exact enrol_toils e name (.delayed due body) rfl fun _ _ hw => by cases hw

theorem scheduleRepeating_toils (e : Nat) (name : String) (pace : Pace) (initial : Duration)
    (runs : List (Body V)) {b : Option Nat} :
    Toils (2 + 2 * Body.loads runs) (.caller b) w (.caller b)
      (w.scheduleRepeating e name pace initial runs).1 := by
  have hreport : Toils 0 (.caller b) w (.caller b)
      (w.report (.repeatingCalled (w.nameOf e) initial pace)) :=
    .same (report_leads _).ops (report_sameWork _ _)
  unfold scheduleRepeating
  dsimp only
  split
  · exact hreport.mono (Nat.zero_le _)
  · rename_i hzero
    split
    · exact hreport.mono (Nat.zero_le _)
    · rename_i due _
      refine (hreport.trans (enrol_toils e name (.periodic pace runs) rfl ?_)).mono
        (Nat.le_of_eq (Nat.zero_add _))
      intro pace' runs' hw
      obtain ⟨rfl, rfl⟩ := Work.periodic.inj hw
      exact ⟨fun h0 => hzero (beq_iff_eq.mpr h0), due, rfl⟩

/-! ## Waiters and executors -/

theorem addWaiter_toils (name : String) (request : Request V) {b : Option Nat}
    (hq : request.Within w.cells.length) :
    Toils ({ name, request } : Waiter V).load (.caller b) w (.caller b)
      (w.addWaiter name request) := by
  refine .of_total (k := 0) (fun _ => (Op.await name hq).ops) rfl rfl
    (fun i child hi hc => absurd (List.getElem?_eq_some_iff.mp hc).1 (Nat.not_lt_of_le hi))
    (fun _ _ => Nat.le_refl _) fun hin => ?_
  have hqueue : (w.addWaiter name request).queue.Perm (.waiter w.waiters.length :: w.queue) :=
    enqueue_queue _ _
  have hkept : ∀ r ∈ w.queue, (w.addWaiter name request).burdenOf r = w.burdenOf r :=
    fun r hm => hin.burdenOf_eq hm rfl (fun _ _ _ hc => ⟨hc, rfl⟩)
      fun j x _ hx => getElem?_concat_iff.mpr (.inl hx)
  have hnew : (w.addWaiter name request).burdenOf (.waiter w.waiters.length) =
      ({ name, request } : Waiter V).load :=
    congrArg (fun x => (Option.map Waiter.burden x).getD 0) List.getElem?_concat_length
  rw [total_perm hqueue, total, total_congr hkept, hnew, Nat.add_comm]
  exact Nat.le_refl _

theorem create_toils (name : String) (document override : Option String)
    (keepPeriodic keepDelayed : Option Bool) {b : Option Nat} :
    Toils 2 (.caller b) w (.caller b)
      (w.create name document override keepPeriodic keepDelayed).1 := by
  have h := create_leads (w := w) (b := b) name document override keepPeriodic keepDelayed
  unfold create at h ⊢
  split
  · exact Toils.refl.mono (Nat.zero_le _)
  · rename_i s hs
    rw [hs] at h
    refine .of_total (n := 0) (k := 1) h.ops rfl List.length_append
      (fun i child hi hc => absurd (List.getElem?_eq_some_iff.mp hc).1 (Nat.not_lt_of_le hi))
      (fun _ _ => Nat.le_refl _) fun hin => total_le fun r hm => Nat.le_of_eq ?_
    exact hin.burdenOf_eq hm rfl (fun _ _ _ hc => ⟨hc, rfl⟩) fun _ _ _ hx => hx

/-- A waiter that is given up while it is ready has one turn yet. -/
theorem abort_toils (name : String) {b : Option Nat} :
    Toils 0 (.caller b) w (.caller b) (w.abort name).1 := by
  have h := abort_leads (w := w) (b := b) name
  unfold abort at h ⊢
  split
  · exact .refl
  · rename_i j hj
    rw [hj] at h
    refine .of_total (k := 0) h.ops rfl rfl
      (fun i child hi hc => absurd (List.getElem?_eq_some_iff.mp hc).1 (Nat.not_lt_of_le hi))
      (fun _ _ => Nat.le_refl _) fun hin => ?_
    refine Nat.le_trans (total_sublist (List.filter_sublist.append_left _)) ?_
    refine total_le fun r hm => ?_
    cases r with
    | waiter k =>
      show ((w.waiters.modify j _)[k]?.map Waiter.burden).getD 0 ≤ _
      obtain ⟨x, hx⟩ := hin.waiter k hm
      rw [List.getElem?_modify, burdenOf, hx]
      by_cases hk : j = k
      · simp only [hk, if_pos, Option.map_eq_map, Option.map_some, Option.getD_some]
        exact x.burden_pos
      · simp only [hk, if_false, Option.map_eq_map, Option.map_some, Option.getD_some]
        exact Nat.le_refl _
    | _ => exact Nat.le_refl _

theorem blockingGet_sameWork (w : World V) (thread : String) (c : Nat) :
    SameWork w (w.blockingGet thread c).1 := by
  unfold blockingGet
  split
  · exact .refl w
  · exact .of_perm rfl rfl rfl rfl (fun _ => rfl) (.refl _)

theorem threadJoin_sameWork (w : World V) (thread : String) :
    SameWork w (w.threadJoin thread).1 := by
  unfold threadJoin
  split
  · exact .refl w
  · split
    · exact .of_perm rfl rfl rfl rfl (fun _ => rfl) (.refl _)
    · exact .refl w

/-! ## Calls -/

theorem onExecutor_toils {n : Nat} {name : String} {g : Nat → World V × Answer V}
    (h : ∀ e < w.executors.length, Toils n f w f (g e).1) :
    Toils n f w f (w.onExecutor name g).1 := by
  unfold onExecutor
  split
  · rename_i e he
    exact .known fun hr => h e (executor_lt hr he)
  · exact Toils.refl.mono (Nat.zero_le _)

theorem onFuture_toils {n : Nat} {name : String} {g : Handle → World V × Answer V}
    (h : ∀ h : Handle, h.cell < w.cells.length → Toils n f w f (g h).1) :
    Toils n f w f (w.onFuture name g).1 := by
  unfold onFuture
  split
  · rename_i h' hh
    exact .known fun hr => h h' (future_lt hr hh)
  · exact Toils.refl.mono (Nat.zero_le _)

theorem onExecutor_sameWork {name : String} {g : Nat → World V × Answer V}
    (h : ∀ e, SameWork w (g e).1) : SameWork w (w.onExecutor name g).1 := by
  unfold onExecutor
  split
  · exact h _
  · exact .refl w

theorem onFuture_sameWork {name : String} {g : Handle → World V × Answer V}
    (h : ∀ h, SameWork w (g h).1) : SameWork w (w.onFuture name g).1 := by
  unfold onFuture
  split
  · exact h _
  · exact .refl w

theorem answer_sameWork {α : Type} (g : α → Answer V) (r : Except Panic α) :
    SameWork w (w.answer g r).1 := by
  cases r <;> exact .refl w

/-- A call raises the burden by its load at most. -/
theorem perform_toils (c : Call V) {b : Option Nat} :
    Toils c.load (.caller b) w (.caller b) (w.perform c).1 := by
  -- Most calls give nobody more to do.
  have same : ∀ {c : Call V}, SameWork w (w.perform c).1 →
      Toils 0 (.caller b) w (.caller b) (w.perform c).1 := fun h => .same (perform_leads _).ops h
  cases c with
  | create executor document name keepPeriodic keepDelayed => exact create_toils _ _ _ _ _
  | execute executor task body =>
    apply onExecutor_toils
    intro e _
    have h : Toils (2 + body.load) (.caller b) w (.caller b) (w.submit e task .unwanted body).1 :=
      enrol_toils e task (.once .unwanted body) rfl fun _ _ hw => by cases hw
    split
    · rename_i hs; rw [hs] at h; exact h
    · rename_i hs; rw [hs] at h; exact h
  | submit executor future instead body =>
    refine onExecutor_toils fun e _ => accepted_toils future .plain ?_ fun _ => enrol_ok
    exact enrol_toils e future (.once _ body) rfl fun _ _ hw => by cases hw
  | schedule executor future delay body =>
    exact onExecutor_toils fun e _ => accepted_toils future .delayed
      (schedule_toils e future delay body) (schedule_leads (b := b) e future delay body).2
  | repeating executor future pace initial runs =>
    exact onExecutor_toils fun e _ => accepted_toils future .periodic
      (scheduleRepeating_toils e future pace initial runs)
      (scheduleRepeating_leads (b := b) e future pace initial runs).2
  | get waiter future bound =>
    exact onFuture_toils fun h hc => addWaiter_toils waiter (.get h.cell bound) hc
  | awaitTermination waiter executor bound =>
    exact onExecutor_toils fun e _ => addWaiter_toils waiter (.termination e bound) trivial
  | invokeAll waiter executor bodies bound =>
    exact onExecutor_toils fun e _ => addWaiter_toils waiter (.invokeAll e bodies bound) trivial
  | invokeAny waiter executor bodies bound =>
    exact onExecutor_toils fun e _ => addWaiter_toils waiter (.invokeAny e bodies bound) trivial
  | abort waiter => exact abort_toils waiter
  | cancel future interrupt => exact same (onFuture_sameWork fun h => cancel_sameWork ..)
  | share future name => exact same (onFuture_sameWork fun h => nameFuture_sameWork ..)
  | shareTask future name => exact same (onFuture_sameWork fun h => nameFuture_sameWork ..)
  | forget future =>
    exact same (onFuture_sameWork fun h => .of_perm rfl rfl rfl rfl (fun _ => rfl) (.refl _))
  | inspect future => exact same (onFuture_sameWork fun _ => .refl w)
  | delay future unit => cases unit <;> exact same (answer_sameWork ..)
  | dueTime future => exact same (answer_sameWork ..)
  | compare a c => exact same (answer_sameWork ..)
  | compareFixed future amount unit due => exact same (answer_sameWork ..)
  | sort futures => exact same (answer_sameWork ..)
  | blockingGet thread future => exact same (onFuture_sameWork fun h => blockingGet_sameWork ..)
  | threadJoin thread => exact same (threadJoin_sameWork ..)
  | shutdown executor => exact same (onExecutor_sameWork fun e => w.shutdown_sameWork e)
  | shutdownNow executor => exact same (onExecutor_sameWork fun e => w.shutdownNow_sameWork e)
  | lifecycle executor => exact same (onExecutor_sameWork fun _ => .refl w)
  | describe executor => exact same (onExecutor_sameWork fun _ => .refl w)
  | stats executor => exact same (onExecutor_sameWork fun _ => .refl w)

end World

end TimedTasks

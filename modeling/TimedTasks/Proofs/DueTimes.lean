import Mathlib.Data.List.Basic
import TimedTasks.Proofs.Runs
import TimedTasks.Proofs.Calls
/-!
The due times of a periodic task. The first is fixed when the task comes in, and each run that
succeeds sets the next, by the pace of the task. The mark of a task can stand for a due time that
can be represented and is not too long after its executor was made.
-/

namespace TimedTasks

variable {V : Type}

namespace Pace

/-- The next due time of a task that was due at `due` and ended at `now`, were there no limit. -/
def next (p : Pace) (due now : Instant) : Instant :=
  match p with
  | fixedRate period => max (due + period.nanos) now
  | fixedDelay delay => now + delay.nanos

theorem le_next (p : Pace) (due now : Instant) : now ≤ p.next due now := by
  cases p with
  | fixedRate period => exact Nat.le_max_right ..
  | fixedDelay delay => exact Nat.le_add_right ..

theorem next?_of_lt {p : Pace} {due now : Instant} (h : p.next due now < Instant.limit) :
    p.next? due now = some (p.next due now) := by
  cases p with
  | fixedRate period =>
    have hlt : due + period.nanos < Instant.limit := Nat.lt_of_le_of_lt (Nat.le_max_left ..) h
    simp [next?, next, Instant.after?, hlt]
  | fixedDelay delay => exact if_pos h

end Pace

/-- Whether the mark of a task of an executor made at `origin` can stand for a due time. -/
def Mark.Fits (origin due : Instant) : Prop :=
  due < Instant.limit ∧ due < origin + UInt64.size

theorem Mark.due_ofInstant {origin due : Instant} (ho : origin ≤ due) (h : Mark.Fits origin due) :
    (Mark.ofInstant origin due).due = due := by
  have hmin : due - origin ≤ UInt64.size - 1 :=
    Nat.le_sub_one_of_lt (Nat.sub_lt_left_of_lt_add ho h.2)
  show origin + min (due - origin) (UInt64.size - 1) = due
  rw [Nat.min_eq_left hmin, Nat.add_sub_cancel' ho]

namespace World

/-- The due times of a periodic task that was first due at `first`: one for each run that has
succeeded, and one for the next. -/
def dueTimes (w : World V) (pace : Pace) (first : Instant) (c : Nat) : List Instant :=
  (w.returnTimes c).scanl pace.next first

/-- The last of them. -/
def nextDue (w : World V) (pace : Pace) (first : Instant) (c : Nat) : Instant :=
  (w.returnTimes c).foldl pace.next first

/-- Whether everyone who asks when a task is due is told a certain time. -/
def Shows (w : World V) (c : Nat) (t : Instant) : Prop :=
  (w.markOf? c).map (·.due) = some t ∧
    ∀ name h, w.futureNames.get? name = some h → h.cell = c → h.kind ≠ .plain →
      w.perform (.dueTime name) = (w, .time t)

variable {w w' : World V} {pace : Pace} {first t : Instant} {c : Nat}

theorem timed_eq {name : String} {a : Handle} {m : Mark} (hn : w.futureNames.get? name = some a)
    (hm : w.handleMark? a = some m) : w.timed name = .ok (a, m) := by
  simp only [timed, future, hn, hm, bind, Except.bind]
  rfl

theorem Shows.of_mark (h : (w.markOf? c).map (·.due) = some t) : w.Shows c t := by
  refine ⟨h, fun name a hn hc hk => ?_⟩
  obtain ⟨m, hm, rfl⟩ := Option.map_eq_some_iff.mp h
  have hmark : w.handleMark? a = some m := by
    unfold handleMark?
    split
    · contradiction
    · rw [hc, hm]
  rw [perform, timed_eq hn hmark]
  rfl

theorem length_dueTimes : (w.dueTimes pace first c).length = (w.returnTimes c).length + 1 :=
  List.length_scanl

theorem getLast?_dueTimes : (w.dueTimes pace first c).getLast? = some (w.nextDue pace first c) :=
  List.getLast?_scanl

theorem getElem?_dueTimes_last :
    (w.dueTimes pace first c)[(w.returnTimes c).length]? = some (w.nextDue pace first c) := by
  rw [← getLast?_dueTimes, List.getLast?_eq_getElem?, length_dueTimes, Nat.add_sub_cancel]

theorem getElem?_dueTimes_succ {n : Nat} {m : Instant}
    (hm : (w.dueTimes pace first c)[n]? = some m) (ht : (w.returnTimes c)[n]? = some t) :
    (w.dueTimes pace first c)[n + 1]? = some (pace.next m t) := by
  rw [dueTimes] at hm ⊢
  rw [List.getElem?_succ_scanl, hm, ht]
  rfl

theorem nextDue_mem : w.nextDue pace first c ∈ w.dueTimes pace first c :=
  List.mem_of_getElem? getElem?_dueTimes_last

theorem dueTimes_congr (h : w'.returnTimes c = w.returnTimes c) :
    w'.dueTimes pace first c = w.dueTimes pace first c := by
  rw [dueTimes, h, dueTimes]

theorem nextDue_congr (h : w'.returnTimes c = w.returnTimes c) :
    w'.nextDue pace first c = w.nextDue pace first c := by
  rw [nextDue, h, nextDue]

theorem nextDue_concat (h : w'.returnTimes c = w.returnTimes c ++ [t]) :
    w'.nextDue pace first c = pace.next (w.nextDue pace first c) t := by
  rw [nextDue, h, List.foldl_append]
  rfl

theorem dueTimes_concat (h : w'.returnTimes c = w.returnTimes c ++ [t]) :
    w'.dueTimes pace first c =
      w.dueTimes pace first c ++ [pace.next (w.nextDue pace first c) t] := by
  rw [dueTimes, h, List.scanl_append]
  rfl

end World

open World

variable {f f' : Focus} {w w' : World V} {i : Nat} {child child' : Child V} {pace : Pace}
  {runs : List (Body V)} {first origin : Instant} {c : Nat}

/-! ## Where due times are counted from -/

/-- An executor has come in before, or comes in now. -/
theorem Op.origins (op : Op f w f' w') :
    ∀ x ∈ w'.executors, (∃ y ∈ w.executors, x.origin = y.origin) ∨ x.origin = w.now := by
  have kept : w'.executors = w.executors →
      ∀ x ∈ w'.executors, (∃ y ∈ w.executors, x.origin = y.origin) ∨ x.origin = w.now :=
    fun h x hx => .inl ⟨x, h ▸ hx, rfl⟩
  have modified : ∀ {k : Nat} {g : Executor → Executor}, w'.executors = w.executors.modify k g →
      (∀ y, (g y).origin = y.origin) →
      ∀ x ∈ w'.executors, (∃ y ∈ w.executors, x.origin = y.origin) ∨ x.origin = w.now := by
    intro k g h hg x hx
    rw [h] at hx
    obtain ⟨j, hj⟩ := List.mem_iff_getElem?.mp hx
    obtain ⟨y, hy, ⟨-, rfl⟩ | ⟨-, rfl⟩⟩ := exists_getElem?_of_modify hj
    · exact .inl ⟨y, List.mem_of_getElem? hy, hg y⟩
    · exact .inl ⟨x, List.mem_of_getElem? hy, rfl⟩
  cases op with
  | create name s =>
    intro x hx
    rcases List.mem_append.mp (show x ∈ w.executors ++ [_] from hx) with hx | hx
    · exact .inl ⟨x, hx, rfl⟩
    · rw [List.mem_singleton.mp hx]
      exact .inr rfl
  | refuse e | enrol name mark hr hb | drain hr | watch hx h0 | terminate hd =>
    exact modified rfl fun _ => rfl
  | close hx h0 => exact modified (List.modify_modify_eq ..) fun _ => rfl
  | cancel hg => exact kept (cancel_frame ..).2.1
  | @start _ k child hc he hm hs hr hd => exact kept (countRun_frame w k child).2.1
  | pause rest hc he ho hp | sleep hc he hp hs hk => exact kept (parkChild_frame _ hc).2.1
  | @finish _ k child r hc he hr hk =>
    exact modified (finish_executors (w := w.modifyCell child.cell (·.leave r)) r hc) fun _ => rfl
  | stop hc he hb => exact modified (finish_executors _ hc) fun _ => rfl
  | @openBatch _ j e work bodies name hr hw hn =>
    intro x hx
    refine .inl (addBatchChildren_induct
      (P := fun w' => ∀ x ∈ w'.executors, ∃ y ∈ w.executors, x.origin = y.origin)
      (fun x hx => ⟨x, hx, rfl⟩) e name (work w.batches.length) 0 bodies ?_ x hx)
    intro w₁ name' body h x hx
    obtain ⟨k, hk⟩ := List.mem_iff_getElem?.mp (show x ∈ w₁.executors.modify e _ from hx)
    obtain ⟨y, hy, ⟨-, rfl⟩ | ⟨-, rfl⟩⟩ := exists_getElem?_of_modify hk
    · exact h y (List.mem_of_getElem? hy)
    · exact h x (List.mem_of_getElem? hy)
  | grant count => exact kept (by rw [addCancelledCells_cells])
  | _ => exact kept rfl

/-- No executor was made later than now. -/
theorem Reached.originOf_le (h : Reached f w) (e : Nat) : w.originOf e ≤ w.now := by
  have hall : ∀ x ∈ w.executors, x.origin ≤ w.now := by
    refine h.induct (P := fun _ w => ∀ x ∈ w.executors, x.origin ≤ w.now)
      (by simp [World.start]) ?_
    intro f₁ w₁ f₂ w₂ _ op ih x hx
    refine Nat.le_trans ?_ op.later.now_le
    rcases op.origins x hx with ⟨y, hy, ho⟩ | ho
    · exact ho ▸ ih y hy
    · exact Nat.le_of_eq ho
  unfold originOf
  cases hx : w.executors[e]? with
  | none => exact Nat.zero_le _
  | some x => exact hall x (List.mem_of_getElem? hx)

/-! ## Tasks that come in -/

/-- Whether a task has just come in, with a due time. -/
structure World.Fresh (w : World V) (i : Nat) (work : Work V) (mark : Mark) (c : Nat) : Prop where
  child : ∃ child, w.children[i]? = some child ∧ child.cell = c ∧ child.work = work ∧
    child.stage = .created
  mark : w.markOf? c = some mark
  starts : w.startTimes c = []
  returns : w.returnTimes c = []
  inTurn : w.RunsInTurn c

theorem World.fresh_addChild (hr : Reached f w) (e : Nat) (name : String) (work : Work V)
    (mark : Mark) :
    (w.addChild e name work (some mark)).1.Fresh w.children.length work mark w.cells.length := by
  obtain ⟨hstarts, hreturns⟩ := hr.judged.no_runs (Nat.le_refl w.cells.length)
  obtain ⟨hturn, hgoing, -⟩ := hr.judged.runsInTurn (Nat.le_refl w.cells.length)
  refine ⟨⟨_, List.getElem?_concat_length, rfl, rfl, rfl⟩, ?_, hstarts, hreturns,
    hturn, hgoing, fun _ _ => ?_⟩
  · show Option.bind (w.cells ++ [{ mark := some mark }])[w.cells.length]? _ = _
    rw [List.getElem?_concat_length]
    rfl
  · show (w.startTimes _).length = (w.returnTimes _).length
    rw [hstarts, hreturns]

theorem World.enrol_accepted {e : Nat} {name : String} {work : Work V} {mark : Option Mark}
    (h : (w.enrol e name work mark).2 = .ok c) :
    c = w.cells.length ∧ (w.enrol e name work mark).1 = (w.addChild e name work mark).1 := by
  unfold enrol at h ⊢
  split at h
  · rename_i hr
    rw [if_pos hr]
    exact ⟨(Except.ok.inj h).symm, rfl⟩
  · cases h

theorem Instant.after?_cases (t : Instant) (d : Duration) :
    t.after? d = none ∨ t.after? d = some (t + d.nanos) := by
  by_cases h : t + d.nanos < limit
  · exact .inr (if_pos h)
  · exact .inl (if_neg h)

/-- What an accepted delayed task comes in with. -/
theorem World.schedule_fresh (hr : Reached f w) {e : Nat} {name : String} {delay : Duration}
    {body : Body V} (h : (w.schedule e name delay body).2 = .ok c) :
    (w.schedule e name delay body).1.Fresh w.children.length
      (.delayed (w.now + delay.nanos) body)
      (.ofInstant (w.originOf e) (w.now + delay.nanos)) c := by
  unfold schedule at h ⊢
  rcases Instant.after?_cases w.now delay with hdue | hdue
  · rw [hdue] at h
    cases h
  · rw [hdue] at h ⊢
    obtain ⟨rfl, hw⟩ := enrol_accepted h
    show ((w.enrol e name _ _).1).Fresh _ _ _ _
    rw [hw]
    exact fresh_addChild hr e name _ _

/-- What an accepted periodic task comes in with. -/
theorem World.scheduleRepeating_fresh (hr : Reached f w) {e : Nat} {name : String}
    {initial : Duration} (h : (w.scheduleRepeating e name pace initial runs).2 = .ok c) :
    0 < pace.interval.nanos ∧
      (w.scheduleRepeating e name pace initial runs).1.Fresh w.children.length
        (.periodic pace runs) (.ofInstant (w.originOf e) (w.now + initial.nanos)) c := by
  let w₁ := w.report (.repeatingCalled (w.nameOf e) initial pace)
  have hr₁ : Reached f w₁ := (report_leads _).reached hr
  unfold scheduleRepeating at h ⊢
  dsimp only at h ⊢
  cases hz : pace.interval.isZero with
  | true =>
    rw [hz] at h
    cases h
  | false =>
    rw [hz] at h
    refine ⟨Nat.pos_of_ne_zero (by simpa [Duration.isZero] using hz), ?_⟩
    rcases Instant.after?_cases w.now initial with hdue | hdue
    · rw [show Instant.after? w₁.now initial = none from hdue] at h
      cases h
    · rw [show Instant.after? w₁.now initial = some _ from hdue] at h ⊢
      obtain ⟨rfl, hw⟩ := enrol_accepted (w := w₁) h
      show ((w₁.enrol e name _ _).1).Fresh _ _ _ _
      rw [hw]
      exact fresh_addChild hr₁ e name _ _

/-- An executor that has just been made. -/
def newPool : World Nat := ((World.start true).perform (.create "pool" none none none none)).1

theorem strode_newPool : Strode (.caller none) newPool :=
  (Strode.start true).strides ((perform_leads _ (Reached.start true)).strides (Strode.start true))

end TimedTasks

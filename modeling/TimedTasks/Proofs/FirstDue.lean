import TimedTasks.Proofs.DueTimes
import TimedTasks.Proofs.Passage
/-!
The first due time of a task. A task that is handed in with a delay is due when the delay has
passed. It shows a due time from the start, which a periodic task also goes by; but its mark cannot
stand for a time too long after its executor was made, and stands for the last that it can instead.
-/

namespace TimedTasks

open World

variable {V : Type} {f f' : Focus} {w w' w₀ : World V} {i : Nat} {child : Child V} {work : Work V}
  {mark : Mark} {first : Instant} {c : Nat}

namespace World

/-- The due time that a task shows that is handed in now with a delay. -/
def markedDue (w : World V) (e : Nat) (delay : Duration) : Instant :=
  (Mark.ofInstant (w.originOf e) (w.now + delay.nanos)).due

/-- The mark of a task goes no further than 64 bits. -/
theorem markedDue_eq {e : Nat} (ho : w.originOf e ≤ w.now) (delay : Duration) :
    w.markedDue e delay = min (w.now + delay.nanos) (w.originOf e + (UInt64.size - 1)) := by
  have hle : w.originOf e ≤ w.now + delay.nanos := Nat.le_trans ho (Nat.le_add_right ..)
  show w.originOf e + min (w.now + delay.nanos - w.originOf e) (UInt64.size - 1) = _
  rw [← Nat.add_min_add_left, Nat.add_sub_cancel' hle]

end World

/-! ## Until the first run has returned -/

/-- A run starts when the due time of its task has come. -/
theorem Op.starts_due (op : Op f w f' w') (hr : Reached f w) (hc : w.children[i]? = some child)
    {s : Instant} (hs : s ∈ w'.startTimes child.cell) :
    s ∈ w.startTimes child.cell ∨ s = w.now ∧ w.dueTime child ≤ s := by
  obtain ⟨l, hl, hadd, harises⟩ := op.adds
  rw [startTimes_append hl] at hs
  refine (List.mem_append.mp hs).imp id fun hs => ?_
  obtain ⟨p, hp, rfl⟩ := List.mem_map.mp hs
  obtain ⟨hp, hstart⟩ := List.mem_filter.mp hp
  have hnow := hadd.time p hp
  have ha := harises p hp
  cases hh : p.2 with
  | called k =>
    rw [hh] at ha hstart
    obtain rfl : k = child.cell := by simpa [Happening.isStart] using hstart
    obtain ⟨j, other, -, -, ho, hcell, -, -, hd⟩ := ha
    obtain rfl := hr.owned.apart ho hc hcell
    obtain rfl := Option.some.inj (hc.symm.trans ho)
    exact ⟨hnow, hnow ▸ hd⟩
  | _ => simp [hh, Happening.isStart] at hstart

/-- The due time of a task stays as long as no run of it has returned, if it is periodic. -/
theorem Move.markOf?_eq (m : Move f w f' w') (ho : Owned w) (hc : w.children[i]? = some child)
    (hn : child.work.kind = .periodic → w.returnTimes child.cell = []) :
    w'.markOf? child.cell = w.markOf? child.cell := by
  by_cases hf : f = .turn (.child i) ∧ f' = .turn (.child i)
  · refine (m.heeds.resets i child hf.1 hf.2 hc).resolve_right ?_
    rintro ⟨value, pace, runs, next, hlast, hw, -⟩
    have hmem := List.mem_of_getLast? hlast
    have hret : w.now ∈ w.returnTimes child.cell :=
      List.mem_map.mpr ⟨_, List.mem_filter.mpr ⟨hmem, by simp [Happening.isReturn]⟩, rfl⟩
    rw [hn (by rw [hw]; rfl)] at hret
    cases hret
  · exact m.op.markOf?_eq ho (fun h h' => hf ⟨h, h'⟩) hc

/-- Whether a task that is delayed or periodic has kept to its first due time. -/
structure World.FirstDue (w : World V) (i : Nat) (work : Work V) (mark : Mark) (first : Instant)
    (c : Nat) : Prop where
  child : ∃ child, w.children[i]? = some child ∧ child.cell = c ∧ child.work = work
  inTurn : work.kind = .periodic → w.RunsInTurn c
  mark : (work.kind = .periodic → w.returnTimes c = []) → w.markOf? c = some mark
  notEarly : ∀ s ∈ w.startTimes c, first ≤ s

theorem World.Fresh.firstDue (h : w.Fresh i work mark c) (first : Instant) :
    w.FirstDue i work mark first c := by
  obtain ⟨child, hc, hcell, hw, -⟩ := h.child
  exact ⟨⟨child, hc, hcell, hw⟩, fun _ => h.inTurn, fun _ => h.mark, by simp [h.starts]⟩

theorem Move.firstDue (m : Move f w f' w') (hw : Walked f w)
    (hfirst : (∃ body, work = .delayed first body) ∨
      (∃ pace runs, work = .periodic pace runs) ∧ mark.due = first)
    (h : w.FirstDue i work mark first c) : w'.FirstDue i work mark first c := by
  obtain ⟨child, hc, rfl, rfl⟩ := h.child
  obtain ⟨child', hc', hl⟩ := m.op.later.children i child hc
  have hbefore : w'.returnTimes child.cell = [] → w.returnTimes child.cell = [] := by
    obtain ⟨l, hl, -⟩ := m.op.adds
    rw [returnTimes_append hl]
    exact fun hn => (List.append_eq_nil_iff.mp hn).1
  refine ⟨⟨child', hc', hl.cell, hl.work⟩, fun hk => m.runsInTurn hw hc hk (h.inTurn hk),
    fun hn => ?_, fun s hs => ?_⟩
  · have hn := fun hk => hbefore (hn hk)
    rw [m.markOf?_eq hw.reached.owned hc hn, h.mark hn]
  rcases m.op.starts_due hw.reached hc hs with hs | ⟨rfl, hdue⟩
  · exact h.notEarly s hs
  rcases hfirst with ⟨body, hwork⟩ | ⟨⟨pace, runs, hwork⟩, rfl⟩
  · rw [World.dueTime, hwork] at hdue
    exact hdue
  · cases hret : w.returnTimes child.cell with
    | nil =>
      rw [dueTime_periodic hwork, h.mark fun _ => hret] at hdue
      exact hdue
    | cons t ts =>
      -- This run is not the first, which did not start before its time either.
      have hlen := (h.inTurn (by rw [hwork]; rfl)).inTurn.least
      rw [hret] at hlen
      obtain ⟨s, hs⟩ := List.exists_mem_of_length_pos (Nat.lt_of_lt_of_le (Nat.zero_lt_succ _) hlen)
      exact Nat.le_trans (h.notEarly s hs) (hw.reached.startTimes_le s hs)

theorem Moves.firstDue (ms : Moves f w f' w') (hw : Walked f w)
    (hfirst : (∃ body, work = .delayed first body) ∨
      (∃ pace runs, work = .periodic pace runs) ∧ mark.due = first)
    (h : w.FirstDue i work mark first c) : w'.FirstDue i work mark first c := by
  refine (ms.induct hw.reached
    (P := fun f w => Walked f w ∧ w.FirstDue i work mark first c) ⟨hw, h⟩ ?_).2
  rintro f₁ w₁ f₂ w₂ - m ⟨hw₁, h₁⟩
  exact ⟨hw₁.moves m.moves, m.firstDue hw₁ hfirst h₁⟩

/-- A task that is accepted with a delay shows the time of its acceptance plus the delay, or the
last time that its mark can stand for if that is earlier; a periodic task does so until its first
run has returned. No run of a periodic task starts before the time shown at first, and that of a
delayed one not before the delay has passed. -/
theorem Walked.first_due {b : Option Nat} (h : Walked (.caller b) w₀) (e : Nat) (name : String)
    (delay : Duration) :
    (∀ body, (w₀.schedule e name delay body).2 = .ok c →
      Moves (.caller b) (w₀.schedule e name delay body).1 f w →
        w.Shows c (w₀.markedDue e delay) ∧
        ∀ s ∈ w.startTimes c, w₀.now + delay.nanos ≤ s) ∧
    (∀ pace runs, (w₀.scheduleRepeating e name pace delay runs).2 = .ok c →
      Moves (.caller b) (w₀.scheduleRepeating e name pace delay runs).1 f w →
        (w.returnTimes c = [] → w.Shows c (w₀.markedDue e delay)) ∧
        (w.startTimes c = [] → w.returnTimes c = []) ∧
        ∀ s ∈ w.startTimes c, w₀.markedDue e delay ≤ s) ∧
    w₀.markedDue e delay = min (w₀.now + delay.nanos) (w₀.originOf e + (UInt64.size - 1)) := by
  have hr := h.reached
  refine ⟨fun body hok ms => ?_, fun pace runs hok ms => ?_, markedDue_eq (hr.originOf_le e) delay⟩
  · have hin := (schedule_leads e name delay body).1 hr
    have hdue := ms.firstDue (h.moves (hin.moves h)) (.inl ⟨body, rfl⟩)
      ((schedule_fresh hr hok).firstDue (w₀.now + delay.nanos))
    exact ⟨.of_mark (by rw [hdue.mark (by simp [Work.kind])]; rfl), hdue.notEarly⟩
  · have hin := (scheduleRepeating_leads e name pace delay runs).1 hr
    have hdue := ms.firstDue (h.moves (hin.moves h)) (.inr ⟨⟨pace, runs, rfl⟩, rfl⟩)
      ((scheduleRepeating_fresh hr hok).2.firstDue (w₀.markedDue e delay))
    refine ⟨fun hn => .of_mark (by rw [hdue.mark fun _ => hn]; rfl), fun hs => ?_, hdue.notEarly⟩
    have hleast := (hdue.inTurn rfl).inTurn.least
    rw [hs] at hleast
    exact List.eq_nil_of_length_eq_zero (Nat.le_zero.mp hleast)

/-- A delay that is over only after the last time that a mark can stand for. -/
def farAway : Duration := ⟨18446744074000000000, by decide⟩

def lateOnce : World Nat := (newPool.schedule 0 "once" farAway (.steps [])).1

def lateAgain : World Nat :=
  (newPool.scheduleRepeating 0 "again" (.fixedRate ⟨10, by decide⟩) farAway
    [.steps [.pending]]).1

/-- The state at the last time that a mark can stand for. -/
def lateAgainRun : World Nat := lateAgain.after [.setElapsed ⟨18446744073709551615, by decide⟩]

theorem moves_lateAgainRun : Moves (.caller none) lateAgain (.caller none) lateAgainRun := by
  have hin := (scheduleRepeating_leads 0 "again" (.fixedRate ⟨10, by decide⟩) farAway
    [.steps [.pending]]).1 strode_newPool.walked.reached
  have h := strode_newPool.walked.moves (hin.moves strode_newPool.walked)
  exact (after_way _ h.reached).moves h

theorem first_due_late :
    lateOnce.Shows 0 18446744073709551615 ∧ lateAgainRun.Shows 0 18446744073709551615 ∧
      ∀ s ∈ lateAgainRun.startTimes 0, 18446744073709551615 ≤ s := by
  obtain ⟨honce, -, -⟩ := Walked.first_due strode_newPool.walked (c := 0) 0 "once" farAway
  obtain ⟨-, hagain, -⟩ := Walked.first_due strode_newPool.walked (c := 0) 0 "again" farAway
  obtain ⟨hshows, -, hstarts⟩ := hagain _ _ rfl moves_lateAgainRun
  exact ⟨(honce _ rfl .refl).1, hshows rfl, hstarts⟩

/-- A due time is shown, and a periodic task runs, before the delay is over. -/
theorem early_lateAgainRun :
    ((newPool.schedule 0 "once" farAway (.steps [])).2 = .ok 0 ∧ lateOnce.startTimes 0 = [] ∧
      ¬ lateOnce.Shows 0 (newPool.now + farAway.nanos)) ∧
    (newPool.scheduleRepeating 0 "again" (.fixedRate ⟨10, by decide⟩) farAway
      [.steps [.pending]]).2 = .ok 0 ∧
    Moves (.caller none) lateAgain (.caller none) lateAgainRun ∧
    ∃ s ∈ lateAgainRun.startTimes 0, s < newPool.now + farAway.nanos := by
  refine ⟨⟨rfl, rfl, fun h => ?_⟩, rfl, moves_lateAgainRun, 18446744073709551615, ?_, by decide⟩
  · have hshown : (lateOnce.markOf? 0).map (·.due) = some 18446744073709551615 := rfl
    have := Option.some.inj (hshown.symm.trans h.1)
    revert this
    decide
  · have hstarts : lateAgainRun.startTimes 0 = [18446744073709551615] := rfl
    rw [hstarts]
    exact List.mem_singleton_self _

end TimedTasks

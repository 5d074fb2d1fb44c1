import TimedTasks.Proofs.DueTimes
import TimedTasks.Proofs.Waiting
/-!
Periodic tasks on time. As long as the due times of a task can be represented and kept, its mark
tells the last of them; no run starts before its due time, and when no task is ready each run whose
due time has come has started.
-/

namespace TimedTasks

open World

variable {V : Type} {f f' : Focus} {w w' : World V} {i : Nat} {child child' : Child V}
  {pace : Pace} {runs : List (Body V)} {first origin : Instant} {c : Nat}

/-! ## What a stride does to a periodic task -/

/-- A child keeps its stage as long as it has its turn. -/
theorem Op.stage_eq (op : Op f w f' w') (hf : f.task? = some (.child i))
    (hf' : f'.task? = some (.child i)) (hc : w.children[i]? = some child)
    (hc' : w'.children[i]? = some child') : child'.stage = child.stage := by
  have same : w'.children = w.children → child'.stage = child.stage := by
    intro h
    rw [h, hc] at hc'
    rw [Option.some.inj hc']
  cases op with
  | enrol name mark hr hb =>
    rcases getElem?_concat_iff.mp hc' with h | ⟨hi, -⟩
    · rw [Option.some.inj (hc.symm.trans h)]
    · exact absurd (List.getElem?_eq_some_iff.mp hc).1 (hi ▸ Nat.lt_irrefl _)
  | cancel hg => exact same (cancel_frame ..).2.2.1
  | @start _ k other hy hn hm hs hr hd =>
    have hchildren : (((w.countRun k other).beginRun other.cell).record
        (.called other.cell)).children = _ := countRun_children w k other
    rw [hchildren] at hc'
    obtain ⟨y, hy, ⟨-, rfl⟩ | ⟨-, rfl⟩⟩ := exists_getElem?_of_modify hc'
    · obtain rfl := Option.some.inj (hc.symm.trans hy)
      split <;> rfl
    · rw [Option.some.inj (hc.symm.trans hy)]
  | openBatch | grant => cases hf
  | _ => first | exact same rfl | cases hf'

/-- Where a plain operation leaves a child without a due time to wait for, it had none before. -/
theorem Plain.stranded (h : Plain f w f' w') (op : Op f w f' w')
    (hc : w.children[i]? = some child) (hc' : w'.children[i]? = some child')
    (hs : child'.stage = .stranded) : child.stage = .stranded := by
  by_cases hf : f.task? = some (.child i)
  · rcases op.leaves hf with hf' | rfl
    · rw [← op.stage_eq hf hf' hc hc', hs]
    · obtain ⟨x, hx, hst⟩ := h.strands i child' hf rfl hc' hs
      rw [Option.some.inj (hc.symm.trans hx), hst]
  · rcases op.kept_or_new hf hc' with hx | ⟨-, hst⟩
    · rw [Option.some.inj (hc.symm.trans hx), hs]
    · rw [hst] at hs
      cases hs

/-- Whether two states show the same due time of a task, and agree on whether it has one to wait
for. -/
structure World.SameDue (w w' : World V) (i c : Nat) : Prop where
  mark : w'.markOf? c = w.markOf? c
  stranded : ∀ child', w'.children[i]? = some child' → child'.stage = .stranded →
    ∃ child, w.children[i]? = some child ∧ child.stage = .stranded

theorem Plain.sameDue (h : Plain f w f' w') (op : Op f w f' w') (ho : Owned w)
    (hc : w.children[i]? = some child) : SameDue w w' i child.cell where
  mark := by
    by_cases hf : f = .turn (.child i) ∧ f' = .turn (.child i)
    · exact h.marks i hf.1 hf.2 _
    · exact op.markOf?_eq ho (fun h h' => hf ⟨h, h'⟩) hc
  stranded child' hc' hs := ⟨child, hc, h.stranded op hc hc' hs⟩

/-- What a stride does to a periodic task: a run of it succeeds, and sets the next due time; or the
due time stays, while a run starts if it has come. -/
theorem Stride.run_cases (s : Stride f w f' w') (hr : Reached f w)
    (hc : w.children[i]? = some child) (hw : child.work = .periodic pace runs) :
    (Returns w w' child.cell ∧
      ∀ next, pace.next? (w.dueTime child) w.now = some next → w'.children = w.children ∧
        w'.markOf? child.cell = (w.markOf? child.cell).map fun m => .ofInstant m.origin next) ∨
    (SameDue w w' i child.cell ∧ w'.returnTimes child.cell = w.returnTimes child.cell ∧
      (w'.startTimes child.cell = w.startTimes child.cell ∨
        Starts w w' child.cell ∧ w.dueTime child ≤ w.now)) := by
  have hk : child.work.kind = .periodic := by rw [hw]; rfl
  -- The success of a run of another task.
  have other : ∀ {k : Nat} {child₂ : Child V} {value : Option V}, k ≠ i →
      w.children[k]? = some child₂ →
      w'.history = w.history ++ [(w.now, .ended child₂.cell (.returned value))] →
      SameRuns w w' child.cell ∧ child.cell ≠ child₂.cell := by
    intro k child₂ value hki hc₂ hh
    have hne : child.cell ≠ child₂.cell := fun he => hki (hr.owned.apart hc₂ hc he.symm)
    exact ⟨.of_quiet hh (by simpa [Happening.opens?] using hne.symm), hne⟩
  cases s with
  | plain op h =>
    have hdue := h.sameDue op hr.owned hc
    rcases op.run_cases hr hc hk with hsame | ⟨-, -, hd, hstart⟩ | ⟨hf, hf', -⟩ | hgives
    · exact .inr ⟨hdue, hsame.returns, .inl hsame.starts⟩
    · exact .inr ⟨hdue, hstart.returns, .inr ⟨hstart, hd⟩⟩
    · exact absurd hf' (h.succeeds i _ hf)
    · exact .inr ⟨hdue, hgives.returns, .inl hgives.starts⟩
  | @succeed _ k child₂ pace₂ runs₂ value hc₂ hw₂ =>
    obtain ⟨-, hchildren, hhistory⟩ := w.succeed_frame child₂ pace₂ value
    by_cases hki : k = i
    · subst hki
      obtain rfl := Option.some.inj (hc.symm.trans hc₂)
      obtain ⟨rfl, -⟩ := Work.periodic.inj (hw.symm.trans hw₂)
      exact .inl ⟨.of_history hhistory, fun next hn => ⟨hchildren, succeed_markOf? hn value⟩⟩
    · obtain ⟨hsame, hne⟩ := other hki hc₂ hhistory
      refine .inr ⟨⟨succeed_markOf?_of_ne hne value, fun child' hc' hs => ?_⟩, hsame.returns,
        .inl hsame.starts⟩
      exact ⟨child', hchildren ▸ hc', hs⟩
  | @strand _ k child₂ pace₂ runs₂ value hc₂ hw₂ he hn =>
    obtain ⟨-, hchildren, hhistory⟩ := w.succeed_frame child₂ pace₂ value
    have hc₂' : (w.succeed child₂ pace₂ value).children[k]? = some child₂ := by rw [hchildren, hc₂]
    obtain ⟨-, -, hcells, hchildren', -, -, -, hhistory', -⟩ := parkChild_frame .stranded hc₂'
    rw [← hhistory'] at hhistory
    by_cases hki : k = i
    · subst hki
      obtain rfl := Option.some.inj (hc.symm.trans hc₂)
      obtain ⟨rfl, -⟩ := Work.periodic.inj (hw.symm.trans hw₂)
      refine .inl ⟨.of_history hhistory, fun next hnext => ?_⟩
      rw [hn] at hnext
      cases hnext
    · obtain ⟨hsame, hne⟩ := other hki hc₂ hhistory
      refine .inr ⟨⟨?_, fun child' hc' hs => ?_⟩, hsame.returns, .inl hsame.starts⟩
      · rw [markOf?, hcells]
        exact succeed_markOf?_of_ne hne value
      · rw [hchildren', List.getElem?_modify_ne _ _ hki, hchildren] at hc'
        exact ⟨child', hc', hs⟩

/-! ## On time -/

/-- Whether a periodic task keeps to its due times. -/
structure World.OnTime (w : World V) (i : Nat) (pace : Pace) (first origin : Instant) (c : Nat) :
    Prop where
  mark : w.markOf? c = some (.ofInstant origin (w.nextDue pace first c))
  since : origin ≤ w.now ∧ origin ≤ w.nextDue pace first c
  notEarly : ∀ (n : Nat) (m s : Instant), (w.dueTimes pace first c)[n]? = some m →
    (w.startTimes c)[n]? = some s → m ≤ s
  waits : ∀ child, w.children[i]? = some child → child.stage ≠ .stranded

namespace World.OnTime

/-- The due time that an operation looks at is the last one. -/
theorem dueTime_eq (h : w.OnTime i pace first origin child.cell)
    (hw : child.work = .periodic pace runs)
    (hfit : Mark.Fits origin (w.nextDue pace first child.cell)) :
    w.dueTime child = w.nextDue pace first child.cell := by
  rw [dueTime_periodic hw, h.mark]
  exact Mark.due_ofInstant h.since.2 hfit

/-- A run that succeeds sets the next due time. -/
theorem returns (h : w.OnTime i pace first origin child.cell)
    (hlen : (w.startTimes child.cell).length = (w.returnTimes child.cell).length + 1)
    (hret : Returns w w' child.cell) (hnow : w.now ≤ w'.now) (hchildren : w'.children = w.children)
    (hmark : w'.markOf? child.cell = (w.markOf? child.cell).map fun m =>
      .ofInstant m.origin (pace.next (w.nextDue pace first child.cell) w.now)) :
    w'.OnTime i pace first origin child.cell where
  mark := by
    rw [hmark, h.mark, nextDue_concat hret.returns]
    rfl
  since := by
    rw [nextDue_concat hret.returns]
    exact ⟨Nat.le_trans h.since.1 hnow, Nat.le_trans h.since.1 (pace.le_next _ _)⟩
  notEarly n m s hm hs := by
    rw [hret.starts] at hs
    rw [dueTimes_concat hret.returns] at hm
    rcases getElem?_concat_iff.mp hm with hm | ⟨rfl, -⟩
    · exact h.notEarly n m s hm hs
    · -- The next run has not started.
      rw [length_dueTimes, List.getElem?_eq_none (Nat.le_of_eq hlen)] at hs
      cases hs
  waits := hchildren ▸ h.waits

/-- A run starts when its due time has come. -/
theorem starts (h : w.OnTime i pace first origin c) (hsame : SameDue w w' i c)
    (hlen : (w.startTimes c).length = (w.returnTimes c).length) (hstart : Starts w w' c)
    (hnow : w.now ≤ w'.now) (hdue : w.nextDue pace first c ≤ w.now) :
    w'.OnTime i pace first origin c where
  mark := by rw [hsame.mark, nextDue_congr hstart.returns, h.mark]
  since := by
    rw [nextDue_congr hstart.returns]
    exact ⟨Nat.le_trans h.since.1 hnow, h.since.2⟩
  notEarly n m s hm hs := by
    rw [dueTimes_congr hstart.returns] at hm
    rw [hstart.starts] at hs
    rcases getElem?_concat_iff.mp hs with hs | ⟨rfl, rfl⟩
    · exact h.notEarly n m s hm hs
    · rw [hlen, getElem?_dueTimes_last] at hm
      exact Option.some.inj hm ▸ hdue
  waits child' hc' hs := by
    obtain ⟨child, hc, hst⟩ := hsame.stranded child' hc' hs
    exact h.waits child hc hst

/-- Nothing is heard of the runs of a task. -/
theorem keeps (h : w.OnTime i pace first origin c) (hsame : SameDue w w' i c)
    (hstarts : w'.startTimes c = w.startTimes c) (hreturns : w'.returnTimes c = w.returnTimes c)
    (hnow : w.now ≤ w'.now) : w'.OnTime i pace first origin c where
  mark := by rw [hsame.mark, nextDue_congr hreturns, h.mark]
  since := by
    rw [nextDue_congr hreturns]
    exact ⟨Nat.le_trans h.since.1 hnow, h.since.2⟩
  notEarly n m s hm hs := by
    rw [dueTimes_congr hreturns] at hm
    rw [hstarts] at hs
    exact h.notEarly n m s hm hs
  waits child' hc' hs := by
    obtain ⟨child, hc, hst⟩ := hsame.stranded child' hc' hs
    exact h.waits child hc hst

end World.OnTime

/-! ## From acceptance on -/

/-- Whether a periodic task has come in, its runs have been had in turn, and have kept to its due
times while these could be represented. -/
structure World.Paced (w : World V) (i : Nat) (pace : Pace) (first origin : Instant) (c : Nat) :
    Prop where
  child : ∃ child runs, w.children[i]? = some child ∧ child.cell = c ∧
    child.work = .periodic pace runs
  inTurn : w.RunsInTurn c
  onTime : (∀ t ∈ w.dueTimes pace first c, Mark.Fits origin t) → w.OnTime i pace first origin c

/-- The runs of a periodic task go on to be had in turn. -/
theorem Moves.runsInTurn (ms : Moves f w f' w') (hw : Walked f w)
    (hc : w.children[i]? = some child) (hk : child.work.kind = .periodic)
    (h : w.RunsInTurn child.cell) : w'.RunsInTurn child.cell := by
  refine (ms.induct hw.reached (P := fun f' w' => Walked f' w' ∧
    (∃ cur, w'.children[i]? = some cur ∧ Child.Later child cur) ∧ w'.RunsInTurn child.cell)
    ⟨hw, ⟨child, hc, .refl child⟩, h⟩ ?_).2.2
  rintro f₁ w₁ f₂ w₂ - m ⟨hw₁, ⟨cur, hcur, hl⟩, h₁⟩
  obtain ⟨cur', hcur', hl'⟩ := m.op.later.children i cur hcur
  refine ⟨hw₁.moves m.moves, ⟨cur', hcur', hl.trans hl'⟩, ?_⟩
  rw [← hl.cell] at h₁ ⊢
  exact m.runsInTurn hw₁ hcur (hl.work ▸ hk) h₁

theorem Stride.paced (s : Stride f w f' w') (hs : Strode f w)
    (h : w.Paced i pace first origin c) : w'.Paced i pace first origin c := by
  obtain ⟨child, runs, hc, rfl, hw⟩ := h.child
  have hk : child.work.kind = .periodic := by rw [hw]; rfl
  obtain ⟨child', hc', hl⟩ := s.moves.ops.later.children i child hc
  have hturn' := s.moves.runsInTurn hs.walked hc hk h.inTurn
  have hnow := s.moves.ops.later.now_le
  refine ⟨⟨child', runs, hc', hl.cell, hl.work.trans hw⟩, hturn', fun hfit => ?_⟩
  rcases s.run_cases hs.walked.reached hc hw with ⟨hret, hmark⟩ |
    ⟨hsame, hreturns, hstarts | ⟨hstart, hdue⟩⟩
  · rw [dueTimes_concat hret.returns] at hfit
    have hon := h.onTime fun t ht => hfit t (List.mem_append_left _ ht)
    have hnext := Pace.next?_of_lt (hfit _ (List.mem_append_right _ (List.mem_singleton_self _))).1
    rw [← hon.dueTime_eq hw (hfit _ (List.mem_append_left _ nextDue_mem))] at hnext
    obtain ⟨hchildren, hmark⟩ := hmark _ hnext
    rw [hon.dueTime_eq hw (hfit _ (List.mem_append_left _ nextDue_mem))] at hmark
    -- The run that returned had started.
    have hlen : (w.startTimes child.cell).length = (w.returnTimes child.cell).length + 1 := by
      have hleast := hturn'.inTurn.least
      rw [hret.starts, hret.returns, List.length_append] at hleast
      exact Nat.le_antisymm h.inTurn.inTurn.most hleast
    exact hon.returns hlen hret hnow hchildren hmark
  · rw [dueTimes_congr hreturns] at hfit
    exact (h.onTime hfit).keeps hsame hstarts hreturns hnow
  · rw [dueTimes_congr hreturns] at hfit
    have hon := h.onTime hfit
    rw [hon.dueTime_eq hw (hfit _ nextDue_mem)] at hdue
    exact hon.starts hsame (h.inTurn.resting hstart.closed hstart.unsettled) hstart hnow hdue

/-- A periodic task that has just come in waits for its first due time. -/
theorem World.Fresh.paced (h : w.Fresh i (.periodic pace runs) (.ofInstant origin first) c)
    (hnow : origin ≤ w.now) (hfirst : origin ≤ first) : w.Paced i pace first origin c := by
  obtain ⟨child, hc, hcell, hw, hst⟩ := h.child
  have hnext : w.nextDue pace first c = first := congrArg (List.foldl pace.next first) h.returns
  refine ⟨⟨child, runs, hc, hcell, hw⟩, h.inTurn, fun _ => ⟨?_, ?_, fun n m s _ hs => ?_,
    fun child' hc' hs => ?_⟩⟩
  · rw [h.mark, hnext]
  · rw [hnext]
    exact ⟨hnow, hfirst⟩
  · rw [h.starts] at hs
    cases hs
  · rw [Option.some.inj (hc'.symm.trans hc), hst] at hs
    cases hs

/-- What holds of a periodic task from its acceptance on. -/
theorem Strode.paced {b : Option Nat} {w₀ : World V} (h : Strode (.caller b) w₀) {e : Nat}
    {name : String} {initial : Duration}
    (hok : (w₀.scheduleRepeating e name pace initial runs).2 = .ok c)
    (hs : Strides (.caller b) (w₀.scheduleRepeating e name pace initial runs).1 f w) :
    Strode f w ∧
      w.Paced w₀.children.length pace (w₀.now + initial.nanos) (w₀.originOf e) c := by
  have hr := h.walked.reached
  have hin := (scheduleRepeating_leads e name pace initial runs).1 hr
  have h₁ := h.strides (hin.strides h)
  refine ⟨h₁.strides hs, hs.induct h₁
    (P := fun _ w => w.Paced w₀.children.length pace (w₀.now + initial.nanos) (w₀.originOf e) c)
    ?_ fun hs s hp => s.paced hs hp⟩
  have horigin := hr.originOf_le e
  have hnow : w₀.now ≤ (w₀.scheduleRepeating e name pace initial runs).1.now :=
    hin.ops.later.now_le
  exact (scheduleRepeating_fresh hr hok).2.paced (Nat.le_trans horigin hnow)
    (Nat.le_trans horigin (Nat.le_add_right ..))

/-! ## Keeping time -/

/-- Whether the runs of a task keep to its due times, of which there is one for each run that has
succeeded and one for the next. -/
structure World.KeepsTime (w : World V) (f : Focus) (c : Nat) (due : List Instant) : Prop where
  length : due.length = (w.returnTimes c).length + 1
  /-- No run starts before the one before it has returned. -/
  inTurn : InTurn (w.startTimes c) (w.returnTimes c)
  /-- No run starts before its due time. -/
  notEarly : ∀ (n : Nat) (m s : Instant), due[n]? = some m → (w.startTimes c)[n]? = some s → m ≤ s
  /-- When no task is ready, each run whose due time has come has started. -/
  started : f = .caller none → w.ready = [] → w.outcomeOf c = none →
    ∀ (n : Nat) (m : Instant), due[n]? = some m → m ≤ w.now → n < (w.startTimes c).length
  /-- The due time that is shown is the last. -/
  shows : ∀ m, due.getLast? = some m → w.Shows c m

/-- When no task is ready, a task that is on time has started each run whose due time has come. -/
theorem World.Paced.started (h : w.Paced i pace first origin c) (hw : Walked (.caller none) w)
    (hready : w.ready = []) (ho : w.outcomeOf c = none)
    (hfit : ∀ t ∈ w.dueTimes pace first c, Mark.Fits origin t) {n : Nat} {m : Instant}
    (hm : (w.dueTimes pace first c)[n]? = some m) (hdue : m ≤ w.now) :
    n < (w.startTimes c).length := by
  obtain ⟨child, runs, hc, rfl, hwork⟩ := h.child
  have hon := h.onTime hfit
  have hlt : n < (w.dueTimes pace first child.cell).length := (List.getElem?_eq_some_iff.mp hm).1
  rw [length_dueTimes] at hlt
  rcases Nat.lt_or_eq_of_le (Nat.le_of_lt_succ hlt) with hlt | rfl
  · exact Nat.lt_of_lt_of_le hlt h.inTurn.inTurn.least
  · rw [getElem?_dueTimes_last] at hm
    obtain rfl := Option.some.inj hm
    cases hway : w.underWay child.cell with
    | true => rw [h.inTurn.going hway]; exact Nat.lt_succ_self _
    | false =>
      -- The task would wait for a due time that is yet to come, which is the last.
      exfalso
      have he : child.hasEnded = false := by
        rw [hw.reached.hasEnded_eq hready hc, isSettled, ho]
        rfl
      obtain ⟨y, hy, -, hsleeps⟩ := hw.reached.sleeps hready (live_child.mpr ⟨child, hc, he⟩)
      obtain rfl := Option.some.inj (hc.symm.trans hy)
      have htimely := hw.steady.timely hc (by simp [Focus.task?])
      cases hst : child.stage with
      | created =>
        rw [hst] at hsleeps
        cases hsleeps
      | scheduled due =>
        rw [hst] at hsleeps
        simp only [Timely, hst, hwork] at htimely
        have hnow := htimely hsleeps
        rw [hon.dueTime_eq hwork (hfit _ nextDue_mem)] at hnow
        exact absurd hdue (Nat.not_le.mpr (hnow ▸ hsleeps))
      | suspended on rest =>
        simp only [Timely, hst] at htimely
        rw [hway] at htimely
        cases htimely
      | stranded => exact hon.waits child hc hst
      | ended => simp [Child.hasEnded, hst] at he

/-- From its acceptance on a periodic task keeps to its due times, as long as these can be
represented and kept. -/
theorem Strode.keeps_time {b : Option Nat} {w₀ : World V} (h : Strode (.caller b) w₀) {e : Nat}
    {name : String} {initial : Duration}
    (hok : (w₀.scheduleRepeating e name pace initial runs).2 = .ok c)
    (hs : Strides (.caller b) (w₀.scheduleRepeating e name pace initial runs).1 f w)
    (hfit : ∀ t ∈ w.dueTimes pace (w₀.now + initial.nanos) c, Mark.Fits (w₀.originOf e) t) :
    w.KeepsTime f c (w.dueTimes pace (w₀.now + initial.nanos) c) := by
  obtain ⟨hstrode, hpaced⟩ := h.paced hok hs
  have hon := hpaced.onTime hfit
  refine ⟨length_dueTimes, hpaced.inTurn.inTurn, hon.notEarly, ?_, fun m hm => .of_mark ?_⟩
  · rintro rfl hready ho n m hm hdue
    exact hpaced.started hstrode.walked hready ho hfit hm hdue
  · rw [getLast?_dueTimes] at hm
    obtain rfl := Option.some.inj hm
    rw [hon.mark]
    exact congrArg some (Mark.due_ofInstant hon.since.2 (hfit _ nextDue_mem))

end TimedTasks

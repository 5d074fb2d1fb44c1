import TimedTasks.Proofs.Cancellation
import TimedTasks.Proofs.Runs
/-!
The runs of a task and its outcome. Every run of a periodic task but the last one succeeds, and any
other task has one run at most. So what the history tells of the runs of a task ends with the run
that decides; a request to cancel the task that was granted before has the last word.
-/

namespace TimedTasks

variable {V : Type}

/-- What the history tells of a run that succeeds: its start, and its end with a value. -/
def succeeded (c : Nat) (value : Option V) : List (Happening V) :=
  [.called c, .ended c (.returned value)]

/-- What the history may tell of a task after the runs that let another one follow, and whether that
is the last that it tells. -/
inductive LastRun (work : Work V) (c : Nat) : (closed : Bool) → List (Happening V) → Prop
  /-- The task waits for its next run. -/
  | resting : LastRun work c false []
  /-- A run is under way. -/
  | going : LastRun work c false [.called c]
  /-- A run ended that no other one follows. -/
  | ended (r : RunEnd V) (hr : work.kind = .periodic → ∀ value, r ≠ .returned value) :
    LastRun work c true [.called c, .ended c r]
  /-- The task was given up while no run was under way. -/
  | stopped : LastRun work c true [.ended c .stopped]

namespace World

/-- The starts and ends of the runs of a task, the earliest first. -/
def runRecord (w : World V) (c : Nat) : List (Happening V) :=
  (w.history.map (·.2)).filter fun h => (h.opens? c).isSome

variable {w w' : World V} {c : Nat} {l : List (Instant × Happening V)}

theorem runRecord_append (h : w'.history = w.history ++ l) :
    w'.runRecord c = w.runRecord c ++ (l.map (·.2)).filter fun h => (h.opens? c).isSome := by
  rw [runRecord, h, List.map_append, List.filter_append, runRecord]

theorem runRecord_keep (h : w'.history = w.history ++ l) (hl : ∀ p ∈ l, p.2.opens? c = none) :
    w'.runRecord c = w.runRecord c := by
  rw [runRecord_append h, List.filter_eq_nil_iff.mpr fun a ha => ?_, List.append_nil]
  obtain ⟨p, hp, rfl⟩ := List.mem_map.mp ha
  simp [hl p hp]

/-- Whether a run is under way is told by the last of these. -/
theorem underWay_eq_runRecord (w : World V) (c : Nat) :
    w.underWay c = ((w.runRecord c).getLast?.bind fun h => h.opens? c).getD false := by
  have hfind : ∀ l : List (Instant × Happening V),
      (l.findSome? fun p => p.2.opens? c) =
        (((l.map (·.2)).filter fun h => (h.opens? c).isSome).head?.bind fun h => h.opens? c) := by
    intro l
    induction l with
    | nil => rfl
    | cons p l ih =>
      rw [List.findSome?_cons, List.map_cons, List.filter_cons]
      cases h : p.2.opens? c with
      | none => exact ih
      | some b => simp [h]
  rw [underWay, hfind, runRecord, List.map_reverse, List.filter_reverse, List.head?_reverse]

/-- The runs of a child so far: if it is periodic, some that succeeded, and then the last one. A
child after whose run no other one follows has ended. -/
def Fires (w : World V) (i : Nat) (work : Work V) (c : Nat) : Prop :=
  ∃ (values : List (Option V)) (closed : Bool) (last : List (Happening V)),
    w.runRecord c = values.flatMap (succeeded c) ++ last ∧ LastRun work c closed last ∧
    (work.kind ≠ .periodic → values = []) ∧
    (closed = true → ∀ child, w.children[i]? = some child → child.hasEnded = true)

end World

open World

variable {f f' : Focus} {w w' : World V} {i c : Nat} {child : Child V} {work : Work V}
  {values : List (Option V)} {closed : Bool} {last : List (Happening V)}

/-! ## What the history tells of the runs -/

/-- A run is under way if the last thing told is a call. -/
theorem underWay_of_runs (h : w.runRecord c = values.flatMap (succeeded c) ++ last)
    (hlast : LastRun work c closed last) :
    w.underWay c = true ∧ last = [.called c] ∧ closed = false ∨
      w.underWay c = false ∧ (last = [] ∧ closed = false ∨ closed = true) := by
  rw [underWay_eq_runRecord, h]
  cases hlast with
  | resting =>
    refine .inr ⟨?_, .inl ⟨rfl, rfl⟩⟩
    rw [List.append_nil]
    rcases values.eq_nil_or_concat with rfl | ⟨values, value, rfl⟩
    · rfl
    · simp [succeeded, Happening.opens?]
  | going => exact .inl ⟨by simp [Happening.opens?], rfl, rfl⟩
  | ended r hr => exact .inr ⟨by simp [Happening.opens?], .inr rfl⟩
  | stopped => exact .inr ⟨by simp [Happening.opens?], .inr rfl⟩

namespace World.Fires

/-- Nothing befalls the runs of a task. -/
theorem keep (h : w.Fires i work c) (hruns : w'.runRecord c = w.runRecord c) (hl : Later w w')
    (hc : w.children[i]? = some child) : w'.Fires i work c := by
  obtain ⟨values, closed, last, htrace, hlast, honce, hends⟩ := h
  refine ⟨values, closed, last, hruns.trans htrace, hlast, honce, fun ho child' hc' => ?_⟩
  obtain ⟨x, hx, hk⟩ := hl.children i child hc
  obtain rfl := Option.some.inj (hx.symm.trans hc')
  exact hk.hasEnded (hends ho child hc)

/-- A run starts after others that succeeded. -/
theorem starts (h : w.Fires i work c) (hc : w.children[i]? = some child)
    (hopen : child.hasEnded = false) (hrests : w.underWay c = false)
    (hruns : w'.runRecord c = w.runRecord c ++ [.called c]) : w'.Fires i work c := by
  obtain ⟨values, closed, last, htrace, hlast, honce, hends⟩ := h
  have hnot : closed = false := by
    refine Bool.eq_false_iff.mpr fun ho => ?_
    exact Bool.noConfusion ((hends ho child hc).symm.trans hopen)
  rcases underWay_of_runs htrace hlast with ⟨hway, -⟩ | ⟨-, ⟨rfl, -⟩ | ho⟩
  · exact Bool.noConfusion (hway.symm.trans hrests)
  · refine ⟨values, false, _, ?_, .going, honce, by simp⟩
    rw [hruns, htrace, List.append_nil]
  · exact Bool.noConfusion (ho.symm.trans hnot)

/-- The run of a periodic task that is under way succeeds. -/
theorem returns (h : w.Fires i work c) (hway : w.underWay c = true) (hk : work.kind = .periodic)
    (value : Option V) (hruns : w'.runRecord c = w.runRecord c ++ [.ended c (.returned value)]) :
    w'.Fires i work c := by
  obtain ⟨values, closed, last, htrace, hlast, -, -⟩ := h
  rcases underWay_of_runs htrace hlast with ⟨-, rfl, -⟩ | ⟨hrests, -⟩
  · refine ⟨values ++ [value], false, [], ?_, .resting, absurd hk, by simp⟩
    rw [hruns, htrace]
    simp [succeeded]
  · exact Bool.noConfusion (hway.symm.trans hrests)

/-- The run that is under way ends as the last one, or the task is given up while none is. -/
theorem ends (h : w.Fires i work c) {r : RunEnd V}
    (hr : work.kind = .periodic → ∀ value, r ≠ .returned value)
    (hway : w.underWay c = true ∨
      r = .stopped ∧ ∃ child, w.children[i]? = some child ∧ child.hasEnded = false)
    (hruns : w'.runRecord c = w.runRecord c ++ [.ended c r])
    (hended : ∀ child, w'.children[i]? = some child → child.hasEnded = true) :
    w'.Fires i work c := by
  obtain ⟨values, closed, last, htrace, hlast, honce, hends⟩ := h
  rcases underWay_of_runs htrace hlast with ⟨-, rfl, -⟩ | ⟨hrests, hlast'⟩
  · refine ⟨values, true, _, ?_, .ended r hr, honce, fun _ => hended⟩
    rw [hruns, htrace, List.append_assoc]
    rfl
  · obtain ⟨rfl, child, hc, hopen⟩ :=
      hway.resolve_left fun h => Bool.noConfusion (h.symm.trans hrests)
    rcases hlast' with ⟨rfl, -⟩ | ho
    · refine ⟨values, true, _, ?_, .stopped, honce, fun _ => hended⟩
      rw [hruns, htrace, List.append_nil]
    · exact Bool.noConfusion ((hends ho child hc).symm.trans hopen)

end World.Fires

/-- What a move adds to what is told of the runs of a task. -/
theorem Move.fires (m : Move f w f' w') (hw : Walked f w) (hc : w.children[i]? = some child)
    (h : w.Fires i child.work child.cell) : w'.Fires i child.work child.cell := by
  have hr := hw.reached
  obtain ⟨l, hl, hadd, harises⟩ := m.op.adds
  have hruns := runRecord_append (c := child.cell) hl
  -- The end of a run, before something that is not about runs.
  have hends : ∀ {r : RunEnd V} {t : Instant}, (t, .ended child.cell r) ∈ l →
      w'.runRecord child.cell = w.runRecord child.cell ++ [.ended child.cell r] →
      w'.Fires i child.work child.cell := by
    intro r t hm hruns
    obtain ⟨j, x, hx, hcell, hend⟩ := m.op.ended hl hm
    obtain rfl := hr.owned.apart hx hc hcell
    obtain rfl := Option.some.inj (hx.symm.trans hc)
    rcases hend with ⟨rfl, rfl, hk, value, rfl⟩ | ⟨rfl, hret, hchildren⟩ |
      ⟨rfl, rfl, hopen, hchildren⟩
    · exact h.returns (hw.steady.acting rfl hc) hk value hruns
    · exact h.ends hret (.inl (hw.steady.acting rfl hc)) hruns (ended_of_modify hchildren)
    · exact h.ends (by simp) (.inr ⟨rfl, x, hc, hopen⟩) hruns (ended_of_modify hchildren)
  by_cases hq : ∀ p ∈ l, p.2.opens? child.cell = none
  · exact h.keep (runRecord_keep hl hq) m.op.later hc
  cases hadd with
  | nothing => exact absurd (by simp) hq
  | drained e => exact absurd (by simp [Happening.opens?]) hq
  | single a =>
    cases a with
    | called k =>
      obtain rfl : k = child.cell := by simpa [Happening.opens?] using hq
      obtain ⟨j, x, rfl, rfl, hx, hcell, hm, -⟩ := harises _ (List.mem_singleton_self _)
      obtain ⟨cell, hcl, hphase, hout⟩ := mayStart_iff.mp hm
      refine h.starts hc ?_ ?_ (by simpa [Happening.opens?] using hruns)
      · -- A child that has ended is settled.
        cases he : child.hasEnded with
        | false => rfl
        | true =>
          have := (hr.tended.tends hc hcl).settled he
          rw [hout] at this
          cases this
      · -- A cell of which a run is under way may not start another.
        refine Bool.eq_false_iff.mpr fun hway => ?_
        have hn : w.outcomeOf child.cell = none := by rw [outcomeOf, hcl]; exact hout
        have := (hr.phased child (List.mem_of_getElem? hc) hn).mp hway
        simp [phaseOf?, hcl, hphase] at this
    | ended k r =>
      obtain rfl : k = child.cell := by simpa [Happening.opens?] using hq
      exact hends (List.mem_singleton_self _) (by simpa [Happening.opens?] using hruns)
    | _ => exact absurd (by simp [Happening.opens?]) hq
  | aborted k r =>
    obtain rfl : k = child.cell := by simpa [Happening.opens?] using hq
    exact hends List.mem_cons_self (by simpa [Happening.opens?] using hruns)

/-- The runs that the history tells of are those of children, also of one that was there before the
last operation. -/
theorem Op.runs_of_child (op : Op f w f' w')
    (ih : ∀ p ∈ w.history, (p.2.opens? c).isSome = true →
      ∃ (i : Nat) (child : Child V), w.children[i]? = some child ∧ child.cell = c) :
    ∀ p ∈ w'.history, (p.2.opens? c).isSome = true →
      ∃ (i : Nat) (child : Child V), w.children[i]? = some child ∧ child.cell = c := by
  obtain ⟨l, hl, -, harises⟩ := op.adds
  intro p hp ho
  rw [hl] at hp
  rcases List.mem_append.mp hp with hp | hp
  · exact ih p hp ho
  · have ha := harises p hp
    cases hh : p.2 with
    | called k =>
      rw [hh] at ho ha
      obtain ⟨i, child, -, -, hc, hcell, -⟩ := ha
      obtain rfl : k = c := by simpa [Happening.opens?] using ho
      exact ⟨i, child, hc, hcell⟩
    | ended k r =>
      rw [hh] at ho ha
      obtain ⟨i, child, -, -, hc, hcell⟩ := ha
      obtain rfl : k = c := by simpa [Happening.opens?] using ho
      exact ⟨i, child, hc, hcell⟩
    | _ => simp [hh, Happening.opens?] at ho

theorem Reached.runs_of_child (hr : Reached f w) : ∀ p ∈ w.history, (p.2.opens? c).isSome = true →
    ∃ (i : Nat) (child : Child V), w.children[i]? = some child ∧ child.cell = c := by
  refine hr.induct (P := fun _ w => ∀ p ∈ w.history, (p.2.opens? c).isSome = true →
    ∃ (i : Nat) (child : Child V), w.children[i]? = some child ∧ child.cell = c)
    (by simp [World.start]) fun _ op ih p hp ho => ?_
  obtain ⟨i, child, hc, hcell⟩ := op.runs_of_child ih p hp ho
  obtain ⟨child', hc', hk⟩ := op.later.children i child hc
  exact ⟨i, child', hc', hk.cell.trans hcell⟩

theorem Walked.fires (h : Walked f w) (hc : w.children[i]? = some child) :
    w.Fires i child.work child.cell := by
  obtain ⟨jumps, ms⟩ := h
  refine (ms.induct (Reached.start jumps) (P := fun f w => Walked f w ∧ ∀ i child,
    w.children[i]? = some child → w.Fires i child.work child.cell)
    ⟨Walked.start jumps, by simp [World.start]⟩ ?_).2 i child hc
  rintro f₁ w₁ f₂ w₂ hr₁ m ⟨hw₁, ih⟩
  refine ⟨hw₁.moves m.moves, fun i child' hc' => ?_⟩
  cases hc : w₁.children[i]? with
  | some child =>
    obtain ⟨x, hx, hl⟩ := m.op.later.children i child hc
    obtain rfl := Option.some.inj (hx.symm.trans hc')
    rw [hl.cell, hl.work]
    exact m.fires hw₁ hc (ih i child hc)
  | none =>
    -- A child that has just come in has had no runs, since its cell is no other's.
    refine ⟨[], false, [], List.filter_eq_nil_iff.mpr fun a ha ho => ?_, .resting, fun _ => rfl,
      by simp⟩
    obtain ⟨p, hp, rfl⟩ := List.mem_map.mp ha
    obtain ⟨j, other, hj, hcell⟩ := m.op.runs_of_child hr₁.runs_of_child p hp ho
    obtain ⟨other', hj', hl⟩ := m.op.later.children j other hj
    obtain rfl := (hr₁.op m.op).owned.apart hj' hc' (hl.cell.trans hcell)
    rw [hc] at hj
    cases hj

/-! ## What the runs decide -/

theorem mem_succeeded {a : Happening V} (h : a ∈ values.flatMap (succeeded c)) :
    a = .called c ∨ ∃ value, a = .ended c (.returned value) := by
  obtain ⟨value, -, ha⟩ := List.mem_flatMap.mp h
  rcases List.mem_cons.mp ha with rfl | ha
  · exact .inl rfl
  · exact .inr ⟨value, List.mem_singleton.mp ha⟩

theorem eq_of_append_cons_eq_concat {α : Type} {a b : α} {l l₁ l₂ : List α}
    (h : l₁ ++ a :: l₂ = l ++ [b]) (ha : a ∉ l) : l₁ = l ∧ a = b ∧ l₂ = [] := by
  rcases List.append_eq_append_iff.mp h with ⟨m, rfl, hm⟩ | ⟨m, rfl, hm⟩
  · cases m with
    | nil => simpa using hm
    | cons x m =>
      obtain ⟨rfl, -⟩ := List.cons.inj hm
      exact absurd (List.mem_append_right _ List.mem_cons_self) ha
  · cases m with
    | nil => simpa [eq_comm] using hm
    | cons x m => simp at hm

/-- A run that no other one follows is the last one, and all the others succeeded. -/
theorem World.Fires.ended (h : w.Fires i work c) {before after : List (Instant × Happening V)}
    {t : Instant} {r : RunEnd V} (hh : w.history = before ++ (t, .ended c r) :: after)
    (hr : work.kind = .periodic → ∀ value, r ≠ .returned value) :
    (∀ p ∈ before, ∀ q, p.2 = .ended c q → work.kind = .periodic ∧ ∃ value, q = .returned value) ∧
    (∀ p ∈ after, p.2.opens? c = none) ∧
    (r ≠ .stopped → ∃ values : List (Option V),
      w.runRecord c = values.flatMap (succeeded c) ++ [.called c, .ended c r]) ∧
    (∀ child, w.children[i]? = some child → child.hasEnded = true) := by
  obtain ⟨values, closed, last, htrace, hlast, honce, hends⟩ := h
  have hsplit := htrace
  rw [runRecord, hh, List.map_append, List.map_cons, List.filter_append,
    List.filter_cons_of_pos (by simp [Happening.opens?])] at hsplit
  have succeeds : ∀ {q : RunEnd V}, .ended c q ∈ values.flatMap (succeeded c) →
      work.kind = .periodic ∧ ∃ value, q = .returned value := by
    intro q hq
    constructor
    · refine Decidable.byContradiction fun hk => ?_
      rw [honce hk] at hq
      cases hq
    · rcases mem_succeeded hq with hq | ⟨value, hq⟩
      · cases hq
      · exact ⟨value, (Happening.ended.inj hq).2⟩
  have hnot : Happening.ended c r ∉ values.flatMap (succeeded c) := by
    intro hm
    obtain ⟨hk, value, hv⟩ := succeeds hm
    exact hr hk value hv
  -- The end of the run is told after runs that succeeded and the call of its body, if any.
  have told : ∀ {l : List (Happening V)} {q : RunEnd V},
      (before.map (·.2)).filter (fun a => (a.opens? c).isSome) ++ .ended c r ::
        (after.map (·.2)).filter (fun a => (a.opens? c).isSome) =
          values.flatMap (succeeded c) ++ l ++ [.ended c q] → (∀ a ∈ l, a = .called c) →
      (∀ p ∈ before, ∀ q, p.2 = .ended c q →
        work.kind = .periodic ∧ ∃ value, q = .returned value) ∧
        (∀ p ∈ after, p.2.opens? c = none) ∧ r = q := by
    intro l q heq hl
    have known : ∀ {q : RunEnd V}, .ended c q ∈ values.flatMap (succeeded c) ++ l →
        .ended c q ∈ values.flatMap (succeeded c) := by
      intro q hq
      rcases List.mem_append.mp hq with hq | hq
      · exact hq
      · cases hl _ hq
    obtain ⟨hbefore, hq, hafter⟩ := eq_of_append_cons_eq_concat heq fun hm => hnot (known hm)
    refine ⟨fun p hp q hpq => ?_, fun p hp => ?_, (Happening.ended.inj hq).2⟩
    · have hm : p.2 ∈ (before.map (·.2)).filter fun a => (a.opens? c).isSome :=
        List.mem_filter.mpr ⟨List.mem_map_of_mem hp, by simp [hpq, Happening.opens?]⟩
      rw [hbefore, hpq] at hm
      exact succeeds (known hm)
    · have := List.filter_eq_nil_iff.mp hafter p.2 (List.mem_map_of_mem hp)
      simpa using this
  have hmem : Happening.ended c r ∈ values.flatMap (succeeded c) ++ last := hsplit ▸ by simp
  have hm := (List.mem_append.mp hmem).resolve_left hnot
  cases hlast with
  | resting => cases hm
  | going => cases List.mem_singleton.mp hm
  | ended q hq =>
    obtain ⟨hbefore, hafter, rfl⟩ := told (l := [.called c]) (by simpa using hsplit) (by simp)
    exact ⟨hbefore, hafter, fun _ => ⟨values, htrace⟩, hends rfl⟩
  | stopped =>
    obtain ⟨hbefore, hafter, rfl⟩ := told (l := []) (by simpa using hsplit) (by simp)
    exact ⟨hbefore, hafter, fun hne => absurd rfl hne, hends rfl⟩

/-- An end of a run that no other one follows decides the outcome. -/
theorem Work.verdict?_of_last {r : RunEnd V}
    (hr : work.kind = .periodic → ∀ value, r ≠ .returned value) :
    (work.verdict? r).isSome = true := by
  by_cases hk : work.kind = .periodic
  · cases r with
    | returned value => exact absurd rfl (hr hk value)
    | _ => rfl
  · exact work.verdict?_isSome hk r

/-- What decides the outcome is a granted request or the end of a run that no other one follows. -/
theorem Happening.verdict?_cases {a : Happening V} {o : Outcome V}
    (h : a.verdict? c work = some o) :
    a = .cancelled c ∧ o = .cancelled ∨
      ∃ r, a = .ended c r ∧ (work.kind = .periodic → ∀ value, r ≠ .returned value) ∧
        work.verdict? r = some o := by
  cases a with
  | cancelled k =>
    by_cases hc : k = c
    · subst hc
      simp only [Happening.verdict?, if_true, Option.some.injEq] at h
      exact .inl ⟨rfl, h.symm⟩
    · simp [Happening.verdict?, hc] at h
  | ended k r =>
    by_cases hc : k = c
    · subst hc
      simp only [Happening.verdict?, if_true] at h
      refine .inr ⟨r, rfl, fun hk value hv => ?_, h⟩
      rw [hv, Work.verdict?, if_pos hk] at h
      cases h
    · simp [Happening.verdict?, hc] at h
  | _ => simp [Happening.verdict?] at h

/-- The outcome of a task of which a run ended that no other one follows: cancelled if a request was
granted before, else what the end of that run decides. -/
theorem Walked.outcome_of_end (h : Walked f w) (hc : w.children[i]? = some child)
    {before after : List (Instant × Happening V)} {t : Instant} {r : RunEnd V}
    (hh : w.history = before ++ (t, .ended child.cell r) :: after)
    (hr : child.work.kind = .periodic → ∀ value, r ≠ .returned value) :
    ((∃ t', (t', .cancelled child.cell) ∈ before) → w.outcomeOf child.cell = some .cancelled) ∧
    ((∀ t', (t', .cancelled child.cell) ∉ before) →
      w.outcomeOf child.cell = child.work.verdict? r) := by
  obtain ⟨hbefore, -, -⟩ := (h.fires hc).ended hh hr
  have hjudged := h.reached.judged.outcome child (List.mem_of_getElem? hc)
  rw [hh, List.findSome?_append, List.findSome?_cons] at hjudged
  have hfirst : ∀ p ∈ before, ∀ o, p.2.verdict? child.cell child.work = some o →
      p.2 = .cancelled child.cell ∧ o = .cancelled := by
    intro p hp o ho
    refine (Happening.verdict?_cases ho).resolve_right ?_
    rintro ⟨q, hq, hne, -⟩
    obtain ⟨hk, value, rfl⟩ := hbefore p hp q hq
    exact hne hk value rfl
  refine ⟨fun ⟨t', ht'⟩ => ?_, fun hnone => ?_⟩
  · cases hv : before.findSome? fun p => p.2.verdict? child.cell child.work with
    | none =>
      have := List.findSome?_eq_none_iff.mp hv _ ht'
      simp [Happening.verdict?] at this
    | some o =>
      obtain ⟨p, hp, ho⟩ := List.exists_of_findSome?_eq_some hv
      rw [hjudged, hv, (hfirst p hp o ho).2]
      rfl
  · rw [List.findSome?_eq_none_iff.mpr fun p hp => ?_, Option.none_or] at hjudged
    · obtain ⟨o, ho⟩ := Option.isSome_iff_exists.mp (Work.verdict?_of_last hr)
      rw [hjudged, Happening.verdict?, if_pos rfl, ho]
    · refine Option.eq_none_iff_forall_ne_some.mpr fun o ho => ?_
      exact hnone p.1 ((hfirst p hp o ho).1 ▸ hp)

/-! ## Periodic tasks -/

/-- A periodic task never completes. If it failed, its runs are some that succeeded and then the one
that failed, with the same cause. A run that broke off leaves the task cancelled; a run that failed
leaves it failed, unless a request to cancel it was granted before, which leaves it cancelled
whichever way the run ends. Once the task is settled, no run of it starts any more. -/
theorem Walked.periodic_outcome (h : Walked f w) (hc : w.children[i]? = some child) {pace : Pace}
    {runs : List (Body V)} (hw : child.work = .periodic pace runs) :
    (∀ value, w.outcomeOf child.cell ≠ some (.completed value)) ∧
    (∀ cause, w.outcomeOf child.cell = some (.failed cause) → ∃ values : List (Option V),
      w.runRecord child.cell = values.flatMap (succeeded child.cell) ++
        [.called child.cell, .ended child.cell (.failed cause)]) ∧
    (∀ before after t r, w.history = before ++ (t, .ended child.cell r) :: after →
      (r = .panicked → w.outcomeOf child.cell = some .cancelled) ∧
      (∀ cause, r = .failed cause → (∀ t', (t', .cancelled child.cell) ∉ before) →
        w.outcomeOf child.cell = some (.failed cause)) ∧
      ((∃ cause, r = .failed cause) ∨ r = .panicked →
        (∃ t', (t', .cancelled child.cell) ∈ before) →
          w.outcomeOf child.cell = some .cancelled)) ∧
    (w.isSettled child.cell = true → ∀ f' w', Moves f w f' w' →
      ∃ l, w'.history = w.history ++ l ∧ ∀ p ∈ l, p.2 ≠ .called child.cell) := by
  have hk : child.work.kind = .periodic := by rw [hw]; rfl
  have hjudged := h.reached.judged.outcome child (List.mem_of_getElem? hc)
  -- What decides the outcome is a granted request or the end of a run without success.
  have decided : ∀ o, w.outcomeOf child.cell = some o → o = .cancelled ∨
      ∃ t r, (t, .ended child.cell r) ∈ w.history ∧ (∀ value, r ≠ .returned value) ∧
        child.work.verdict? r = some o := by
    intro o ho
    obtain ⟨p, hp, hv⟩ := List.exists_of_findSome?_eq_some (hjudged.symm.trans ho)
    rcases Happening.verdict?_cases hv with ⟨-, rfl⟩ | ⟨r, hr, hne, hv⟩
    · exact .inl rfl
    · exact .inr ⟨p.1, r, hr ▸ hp, hne hk, hv⟩
  refine ⟨fun value ho => ?_, fun cause ho => ?_, fun before after t r hh => ?_, ?_⟩
  · rcases decided _ ho with ho | ⟨t, r, -, hr, hv⟩
    · cases ho
    · cases r with
      | returned v => exact hr v rfl
      | _ => simp [Work.verdict?] at hv
  · rcases decided _ ho with ho | ⟨t, r, hm, hr, hv⟩
    · cases ho
    · obtain rfl : r = .failed cause := by
        cases r with
        | returned v => exact absurd rfl (hr v)
        | failed e => simpa [Work.verdict?] using hv
        | _ => simp [Work.verdict?] at hv
      obtain ⟨before, after, hh⟩ := List.append_of_mem hm
      exact ((h.fires hc).ended hh fun _ => hr).2.2.1 (by simp)
  · refine ⟨?_, ?_, ?_⟩
    · rintro rfl
      obtain ⟨hgranted, hnot⟩ := h.outcome_of_end hc hh (by simp)
      by_cases hb : ∃ t', (t', .cancelled child.cell) ∈ before
      · exact hgranted hb
      · exact hnot fun t' ht' => hb ⟨t', ht'⟩
    · rintro cause rfl hb
      exact (h.outcome_of_end hc hh (by simp)).2 hb
    · intro hr hb
      refine (h.outcome_of_end hc hh ?_).1 hb
      rcases hr with ⟨cause, rfl⟩ | rfl <;> simp
  · intro hs f' w' ms
    obtain ⟨l, hl, hruns⟩ := (ms.no_runs h.reached hc hs).1
    refine ⟨l, hl, fun p hp hcalled => ?_⟩
    have := hruns p hp
    simp [hcalled, Happening.isRun] at this

/-- An executor has had three periodic tasks: the second run of the first one failed, a run of the
second one broke off, and a run of the third one cancelled the task and then failed. -/
def threePeriodic : World Nat :=
  (World.start true).after
    [.call (.create "pool" none none none none),
      .call (.repeating "pool" "weak" (.fixedRate ⟨25, by decide⟩) .zero
        [.steps [], .steps [.err (.text "boom")]]),
      .call (.repeating "pool" "wild" (.fixedRate ⟨25, by decide⟩) .zero [.steps [.panic]]),
      .call (.repeating "pool" "late" (.fixedDelay ⟨25, by decide⟩) .zero
        [.steps [.act (.cancel "late" true), .err (.text "boom")]]),
      .advance ⟨25, by decide⟩]

theorem periodic_outcome_threePeriodic :
    (∃ values : List (Option Nat), threePeriodic.runRecord 0 = values.flatMap (succeeded 0) ++
      [.called 0, .ended 0 (.failed (.text "boom"))]) ∧
    threePeriodic.outcomeOf 1 = some .cancelled ∧ threePeriodic.outcomeOf 2 = some .cancelled := by
  have h : Walked (.caller none) threePeriodic := (Walked.start true).after _
  obtain ⟨-, hweak, -⟩ := Walked.periodic_outcome h (i := 0) rfl rfl
  obtain ⟨-, -, hwild, -⟩ := Walked.periodic_outcome h (i := 1) rfl rfl
  obtain ⟨-, -, hlate, -⟩ := Walked.periodic_outcome h (i := 2) rfl rfl
  refine ⟨hweak _ rfl, ?_, ?_⟩
  · exact (hwild (threePeriodic.history.take 5) (threePeriodic.history.drop 6) 0 _ rfl).1 rfl
  · obtain ⟨-, -, hcancelled⟩ :=
      hlate (threePeriodic.history.take 10) (threePeriodic.history.drop 11) 0 _ rfl
    refine hcancelled (.inl ⟨_, rfl⟩) ⟨0, ?_⟩
    exact List.mem_of_getElem? (show (threePeriodic.history.take 10)[9]? = _ from rfl)

end TimedTasks

import TimedTasks.Proofs.BoundedWaits
import TimedTasks.Proofs.Endings
/-!
What a call for the first value returns, and what is on record. A value or a failure that the call
returns is that of a body of its own. It is also the outcome of that task, and counted as such,
unless the task was cancelled in the middle of the poll in which its body ended: the task is then on
record as cancelled, but the caller gets what the body ended with all the same.
-/

namespace TimedTasks

open World

variable {V : Type} {f f' : Focus} {w w' w₀ : World V} {i j c : Nat} {child : Child V}

/-! ## Requests in the middle of a poll -/

/-- A granted request is the last thing to happen in an operation. -/
theorem Addition.nil_of_cancelled {t t' : Instant} {l l₁ l₂ : List (Instant × Happening V)}
    (h : Addition t l) (hl : l = l₁ ++ (t', .cancelled c) :: l₂) : l₂ = [] := by
  cases h with
  | nothing => simp at hl
  | single a =>
    cases l₁ with
    | nil => exact (List.cons.inj hl).2.symm
    | cons p l₁ => simp at hl
  | drained e =>
    have hm : (t', Happening.cancelled c) ∈
        [(t, Happening.asked (V := V) e), (t, .draining e)] := by
      rw [hl]
      exact List.mem_append_right _ List.mem_cons_self
    simp at hm
  | aborted k r =>
    cases l₁ with
    | nil => simp at hl
    | cons p l₁ =>
      cases l₁ with
      | nil => exact (List.cons.inj (List.cons.inj hl).2).2.symm
      | cons q l₁ => simp at hl

/-- After a granted request the body of the task is neither made nor let go on. -/
theorem Walked.no_runs_after_cancelled (hw : Walked f w) {t : Instant}
    {before after : List (Instant × Happening V)}
    (hh : w.history = before ++ (t, .cancelled c) :: after) :
    ∀ p ∈ after, p.2.isRun c = false := by
  refine hw.induct (P := fun _ w => ∀ before after t c,
    w.history = before ++ (t, .cancelled c) :: after → ∀ p ∈ after, p.2.isRun c = false)
    (by simp [World.start]) ?_ before after t c hh
  intro f₁ w₁ f₂ w₂ hr m ih before after t c hh
  obtain ⟨l, hl, hadd, harises⟩ := m.op.adds
  rcases List.append_eq_append_iff.mp (hl.symm.trans hh) with ⟨l', rfl, hl'⟩ | ⟨l', hl', hafter⟩
  · rw [hadd.nil_of_cancelled hl']
    simp
  · cases l' with
    | nil =>
      rw [List.nil_append] at hafter
      have hlast : l = [] ++ (t, .cancelled c) :: after := hafter.symm
      rw [hadd.nil_of_cancelled hlast]
      simp
    | cons p l' =>
      obtain ⟨rfl, rfl⟩ := List.cons.inj hafter
      intro p hp
      rcases List.mem_append.mp hp with hp | hp
      · exact ih before l' t c hl' p hp
      · refine Bool.eq_false_iff.mpr fun hrun => ?_
        -- The task was settled by the request.
        obtain ⟨i, child, hc, rfl⟩ : ∃ (i : Nat) (child : Child V),
            w₁.children[i]? = some child ∧ child.cell = c := by
          have ha := harises p hp
          cases hq : p.2 with
          | called k =>
            rw [hq] at hrun ha
            obtain ⟨i, child, -, -, hc, hcell, -⟩ := ha
            exact ⟨i, child, hc, hcell.trans (beq_iff_eq.mp hrun)⟩
          | polled k =>
            rw [hq] at hrun ha
            obtain ⟨i, child, -, hc, hcell, -⟩ := ha
            exact ⟨i, child, hc, hcell.trans (beq_iff_eq.mp hrun)⟩
          | _ => simp [hq, Happening.isRun] at hrun
        have hs : w₁.isSettled child.cell = true := by
          rw [isSettled, hr.judged.outcome child (List.mem_of_getElem? hc),
            List.findSome?_isSome_iff]
          exact ⟨(t, .cancelled child.cell), by rw [hl']; simp, by simp [Happening.verdict?]⟩
        obtain ⟨l'', hl'', hquiet⟩ := m.no_runs hr hc hs
        obtain rfl := List.append_cancel_left (hl''.symm.trans hl)
        exact Bool.noConfusion ((hquiet p hp).symm.trans hrun)

/-- Whether a request to cancel a task was granted in the middle of the poll in which its body
ended: from then on to that end the body was not let go on once more. -/
def World.CutShort (w : World V) (c : Nat) (r : RunEnd V) : Prop :=
  ∃ before between after t t',
    w.history = before ++ (t', .cancelled c) :: (between ++ (t, .ended c r) :: after) ∧
      ∀ p ∈ between, p.2.isRun c = false

/-- A task that runs once has the outcome that its body ended with, unless it was cut short. -/
theorem Walked.outcome_or_cutShort (hw : Walked f w) (hc : w.children[i]? = some child)
    (hk : child.work.kind ≠ .periodic) {t : Instant} {r : RunEnd V}
    (hm : (t, .ended child.cell r) ∈ w.history) :
    child.hasEnded = true ∧
      (w.outcomeOf child.cell = child.work.verdict? r ∨ w.CutShort child.cell r) := by
  obtain ⟨before, after, hh⟩ := List.append_of_mem hm
  obtain ⟨-, hnot⟩ := hw.outcome_of_end hc hh fun h => absurd h hk
  obtain ⟨-, -, -, hended⟩ := (hw.fires hc).ended hh fun h => absurd h hk
  refine ⟨hended child hc, ?_⟩
  by_cases hb : ∃ t', (t', .cancelled child.cell) ∈ before
  · obtain ⟨t', ht'⟩ := hb
    obtain ⟨before', between, rfl⟩ := List.append_of_mem ht'
    rw [List.append_assoc] at hh
    refine .inr ⟨before', between, after, t, t', hh, fun p hp => ?_⟩
    exact hw.no_runs_after_cancelled hh p (List.mem_append_left _ hp)
  · exact .inl (hnot fun t' ht' => hb ⟨t', ht'⟩)

/-! ## The call -/

section Call

variable {x : Waiter V} {e : Nat} {bodies : List (Body V)} {bound : Option Duration}
  {r : Except TaskError (Option V)}

/-- A call for the first value that does not hand its bodies in returns no result of a task. -/
theorem World.beginAny_refused (h : ¬ w.HandsIn e bodies bound) :
    ∃ err, (w.beginAny j x e bodies bound).log =
      w.log ++ [⟨w.now, x.name, .answered (.error err)⟩] := by
  unfold beginAny
  dsimp only
  split
  · exact ⟨_, rfl⟩
  · rename_i hne
    split
    · exact ⟨_, rfl⟩
    · rename_i hrun
      split
      · exact ⟨_, rfl⟩
      · rename_i hz
        rw [Bool.not_eq_true, Bool.not_eq_false'] at hrun
        exact absurd ⟨hrun, Bool.eq_false_iff.mpr hz, by simpa using hne⟩ h

/-- A call for the first value that returns the result of a task is in a later turn than its first.
The result is read off the tasks that it handed in, and the others of them are cancelled. -/
theorem World.TurnSince.race (h : w₀.TurnSince j x w)
    (hq : x.request = .invokeAny e bodies bound)
    (hlog : (w.waiterTurn j).log = w.log ++ [⟨w.now, x.name, .answered (.read r)⟩]) :
    w.RaceResult (w₀.handedIn j) bound r ∧
      (∀ c ∈ w₀.handedIn j, ∃ (i : Nat) (child : Child V), w.children[i]? = some child ∧
        child.cell = c ∧ child.executor = e ∧
        ∃ body, child.work = .oneOfAny w₀.batches.length body) ∧
      (w.waiterTurn j).cells = (w.cancelAll (w₀.handedIn j)).1.cells := by
  have hfirst := waiterTurn_created h.waiter h.created
  rw [beginWaiter, hq] at hfirst
  dsimp only at hfirst
  by_cases hopens : w₀.HandsIn e bodies bound
  · obtain ⟨hrun, hz, hne⟩ := hopens
    obtain ⟨n, hwaits⟩ := waiterTurn_any h.waiter h.created hq hrun hne hz rfl
    rcases h.turn with rfl | ops
    · -- The first turn says nothing.
      have hquiet : (w.waiterTurn j).log = w.log := by
        rw [hwaits]
        exact addBatchChildren_induct (w := w.report n) (P := fun w' => w'.log = w.log) rfl e
          x.name (.oneOfAny w.batches.length) 0 bodies fun _ _ _ h => h
      rw [hquiet] at hlog
      simp at hlog
    · have hr₁ : Reached (.caller none) (w₀.waiterTurn j) := waiterTurn_leads.reached h.reached
      obtain ⟨new, hchildren, hworks, hnew, -, hx₁, hb₁⟩ := handed_in h.waiter hwaits
      obtain ⟨batch, y, hb, hbatch, hraced, hy, hname, hreq, hs⟩ :=
        ops.racing hr₁ hx₁ rfl hb₁ hchildren hworks hne
      obtain ⟨z, hz, hze⟩ := h.goesOn
      obtain rfl := Option.some.inj (hy.symm.trans hz)
      have hcells : w₀.handedIn j = batch.cells := by simp [handedIn, hchildren, hbatch]
      have hturn : w.waiterTurn j = w.checkWaiter j y (.batch w₀.batches.length)
          (bound.bind (Instant.after? w₀.now)) := by
        rw [waiterTurn, hy]
        dsimp only
        rw [hs.resolve_left hze]
      rw [hcells]
      by_cases hover : w.RaceOver batch.cells (bound.bind (Instant.after? w₀.now))
      · rw [checkWaiter_over hraced hb hover] at hturn
        obtain ⟨-, hlog', hcancels⟩ := conclude_any hb hy (hreq.trans hq) batch.notified
        rw [← hturn] at hlog' hcancels
        have hsame := List.append_cancel_left (hlog'.symm.trans hlog)
        simp only [List.cons.injEq, Entry.mk.injEq, Event.answered.injEq, Answer.read.injEq,
          true_and, and_true] at hsame
        refine ⟨hsame.2 ▸ hraced.result hover (fun h => by rw [h]; rfl), fun c hc => ?_, hcancels⟩
        obtain ⟨child, hm, rfl⟩ := List.mem_map.mp (hbatch ▸ hc)
        obtain ⟨i, hi⟩ := List.mem_iff_getElem?.mp (hchildren ▸ List.mem_append_right _ hm)
        obtain ⟨child', hi', hk⟩ := ops.later.children i child hi
        obtain ⟨body, -, hbody⟩ := List.mem_map.mp (hworks ▸ List.mem_map_of_mem hm)
        exact ⟨i, child', hi', hk.cell, hk.executor.trans (hnew child hm).1, body,
          hk.work.trans hbody.symm⟩
      · rw [hturn, checkWaiter_not_over hraced hb hover] at hlog
        simp [modifyWaiter, suspend] at hlog
  · rcases h.turn with rfl | ops
    · obtain ⟨err, herr⟩ := beginAny_refused (w := w) (j := j) (x := x) hopens
      rw [hfirst, herr] at hlog
      simp at hlog
    · -- It has ended in its first turn.
      obtain ⟨y, hy, hye⟩ := h.goesOn
      have hended := beginAny_ends (w := w₀) h.waiter hopens
      rw [← hfirst] at hended
      obtain ⟨z, hz, hl⟩ := ops.later.waiters j _ hended
      obtain rfl := Option.some.inj (hy.symm.trans hz)
      exact absurd (hl.hasEnded rfl) hye

/-- A cancellation of some tasks makes none of them complete. -/
theorem World.cancelAll_outcomeOf (w : World V) (cells : List Nat) (c : Nat) :
    (w.cancelAll cells).1.outcomeOf c = w.outcomeOf c ∨
      (w.cancelAll cells).1.outcomeOf c = some .cancelled := by
  rw [outcomeOf, outcomeOf, cancelAll_cells]
  split
  · cases w.cells[c]? with
    | none => exact .inl rfl
    | some cell =>
      show (cell.cancelBy true).outcome = cell.outcome ∨ (cell.cancelBy true).outcome = _
      unfold Cell.cancelBy
      split
      · exact .inr rfl
      · exact .inl rfl
  · exact .inl rfl

/-- Whether it is on record that a task of an executor has ended in some way: its future tells it,
and the executor has counted a task that ended so. -/
structure World.OnRecord (w : World V) (e c : Nat) (o : Outcome V) : Prop where
  outcome : w.outcomeOf c = some o
  counted : ∃ x, w.executors[e]? = some x ∧ 0 < x.counters.ended o.ending

theorem Reached.onRecord (hr : Reached f w) (hc : w.children[i]? = some child)
    (he : child.hasEnded = true) {o : Outcome V} (ho : w.outcomeOf child.cell = some o) :
    w.OnRecord child.executor child.cell o := by
  have hx := List.getElem?_eq_getElem (hr.owned.executor_lt hc)
  refine ⟨ho, _, hx, ?_⟩
  rw [(hr.audited _ _ hx).ended, endedAs, List.countP_pos_iff]
  refine ⟨child, List.mem_of_getElem? hc, ?_⟩
  simp [he, endingOf, ho]

/-- The value or the failure that a call for the first value returns is that with which the body of
a task of its own ended. It is on record as the outcome of that task, unless a request to cancel the
task was granted in the middle of the poll in which the body ended. No task of the call completes
when it returns a failure. -/
theorem Walked.first_value_on_record (hw : Walked (.turn (.waiter j)) w) (h : w₀.TurnSince j x w)
    (hq : x.request = .invokeAny e bodies bound)
    (hlog : (w.waiterTurn j).log = w.log ++ [⟨w.now, x.name, .answered (.read r)⟩]) :
    (∀ value, r = .ok value → ∃ c ∈ w₀.handedIn j,
      (∃ t, (t, .ended c (.returned value)) ∈ w.history) ∧
      ((w.waiterTurn j).OnRecord e c (.completed none) ∨ w.CutShort c (.returned value))) ∧
    (∀ cause, r = .error (.execution cause) →
      (∀ c ∈ w₀.handedIn j, ∀ value, (w.waiterTurn j).outcomeOf c ≠ some (.completed value)) ∧
      ∃ c ∈ w₀.handedIn j, (∃ t, (t, .ended c (.failed cause)) ∈ w.history) ∧
        ((w.waiterTurn j).OnRecord e c (.failed cause) ∨ w.CutShort c (.failed cause))) := by
  have hr := hw.reached
  have hleads : Leads (.turn (.waiter j)) w (.caller none) (w.waiterTurn j) := waiterTurn_leads
  have hlater := (hleads hr).ops.later
  obtain ⟨hresult, hown, hcells⟩ := h.race hq hlog
  -- What the body of a task of the call ended with is on record, unless the task was cut short.
  have recorded : ∀ c ∈ w₀.handedIn j, ∀ (t : Instant) (q : RunEnd V) (o : Outcome V),
      (t, .ended c q) ∈ w.history → (∀ b body, (Work.oneOfAny b body).verdict? q = some o) →
      (w.waiterTurn j).OnRecord e c o ∨ w.CutShort c q := by
    intro c hc t q o hm hv
    obtain ⟨i, child, hi, rfl, rfl, body, hwork⟩ := hown c hc
    obtain ⟨hended, ho | hcut⟩ := hw.outcome_or_cutShort hi (by rw [hwork]; simp [Work.kind]) hm
    · rw [hwork, hv] at ho
      obtain ⟨child', hi', hk⟩ := hlater.children i child hi
      refine .inl ?_
      rw [← hk.executor, ← hk.cell]
      refine (hleads.reached hr).onRecord hi' (hk.hasEnded hended) ?_
      rw [hk.cell]
      exact hlater.outcomeOf ho
    · exact .inr hcut
  refine ⟨fun value hv => ?_, fun cause hcause => ⟨fun c hc value ho => ?_, ?_⟩⟩
  · obtain ⟨p, hp, hval⟩ := List.exists_of_findSome?_eq_some ((hresult.value value).mp hv)
    obtain ⟨t, a⟩ := p
    cases a with
    | ended c q =>
      simp only [Happening.value?] at hval
      split at hval
      · rename_i hc
        cases q with
        | returned value' =>
          obtain rfl := Option.some.inj hval
          exact ⟨c, hc, ⟨t, hp⟩, recorded c hc t _ _ hp fun b body => rfl⟩
        | _ => cases hval
      · cases hval
    | _ => cases hval
  · -- A task that completes has ended with a value.
    obtain ⟨i, child, hi, rfl, -, body, hwork⟩ := hown c hc
    have hbefore : w.outcomeOf child.cell = some (.completed value) := by
      rw [outcomeOf, hcells] at ho
      rcases w.cancelAll_outcomeOf (w₀.handedIn j) child.cell with hk | hk
      · exact hk.symm.trans ho
      · cases hk.symm.trans ho
    obtain ⟨hnone, -⟩ := (hresult.failed cause).mp hcause
    rw [hr.judged.outcome child (List.mem_of_getElem? hi)] at hbefore
    obtain ⟨p, hp, hv⟩ := List.exists_of_findSome?_eq_some hbefore
    rcases Happening.verdict?_cases hv with ⟨-, hv⟩ | ⟨q, hq, -, hv⟩
    · cases hv
    · cases q with
      | returned value' =>
        have := List.findSome?_eq_none_iff.mp hnone p hp
        simp [hq, Happening.value?, hc, RunEnd.value?] at this
      | _ => simp [Work.verdict?] at hv
  · obtain ⟨-, -, hlast⟩ := (hresult.failed cause).mp hcause
    obtain ⟨p, hp, hval⟩ := List.exists_of_findSome?_eq_some hlast
    obtain ⟨t, a⟩ := p
    rw [List.mem_reverse] at hp
    cases a with
    | ended c q =>
      simp only [Happening.cause?] at hval
      split at hval
      · rename_i hc
        cases q with
        | failed cause' =>
          obtain rfl := Option.some.inj hval
          exact ⟨c, hc, ⟨t, hp⟩, recorded c hc t _ _ hp fun b body => rfl⟩
        | _ => cases hval
      · cases hval
    | _ => cases hval

end Call

/-- A call for the first value of one body is about to have its first turn. -/
def race (steps : List (Step Nat)) : World Nat :=
  (World.start true).after
    [.call (.create "pool" none none none none),
      .call (.invokeAny "call" "pool" [.steps steps] none)]

/-- The caller of the race as it was made. -/
def racer (steps : List (Step Nat)) : Waiter Nat :=
  { name := "call", request := .invokeAny 0 [.steps steps] none }

/-- Once the body has ended the caller has its next turn. -/
theorem race_turnSince (steps : List (Step Nat)) (n : Nat)
    (hready : ((race steps).turns (n + 1)).ready = [.waiter 0])
    (hgoes : ∃ y, ((race steps).turns (n + 1)).waiters[0]? = some y ∧ y.stage ≠ .ended) :
    Walked (.turn (.waiter 0)) (atTurn ((race steps).turns (n + 1))) ∧
      (atTurn (race steps)).TurnSince 0 (racer steps) (atTurn ((race steps).turns (n + 1))) := by
  have takes : ∀ {w : World Nat} {r : TaskRef}, w.ready = [r] →
      Leads (.caller none) w (.turn r) (atTurn w) := by
    intro w r hw
    refine .op (fun _ => ?_) (fun _ => .turns) rfl
    rw [atTurn, hw]
    exact .take hw
  have hbegins : Walked (.caller none) (race steps) := (Walked.start true).after _
  have htakes := takes (w := race steps) (r := .waiter 0) rfl
  have hfirst : Leads (.turn (.waiter 0)) (atTurn (race steps)) (.caller none)
      ((race steps).turns 1) := waiterTurn_leads (w := atTurn (race steps)) (j := 0)
  have hrest : Leads (.caller none) ((race steps).turns 1) (.caller none)
      ((race steps).turns (n + 1)) := turns_leads (w := (race steps).turns 1) n
  have hall := (htakes.trans hfirst).trans (hrest.trans (takes hready))
  refine ⟨hbegins.moves ((hall hbegins.reached).moves hbegins), htakes.reached hbegins.reached,
    rfl, rfl, .inr ?_, hgoes⟩
  exact ((hrest.trans (takes hready)) ((htakes.trans hfirst).reached hbegins.reached)).ops

theorem first_value_on_record_race :
    ((atTurn ((race [.ok (some 7)]).turns 2)).waiterTurn 0).OnRecord 0 0 (.completed none) := by
  obtain ⟨hw, h⟩ := race_turnSince [.ok (some 7)] 1 rfl ⟨_, rfl, by simp⟩
  obtain ⟨hvalue, -⟩ := Walked.first_value_on_record hw h rfl (r := .ok (some 7)) rfl
  obtain ⟨c, hc, -, hrecord | ⟨before, between, after, t, t', hh, -⟩⟩ := hvalue _ rfl
  · obtain rfl := List.mem_singleton.mp (show c ∈ [0] from hc)
    exact hrecord
  · -- No request was granted.
    have hhistory : (atTurn ((race [.ok (some 7)]).turns 2)).history =
        [(0, .called 0), (0, .polled 0), (0, .ended 0 (.returned (some 7)))] := rfl
    have hm : (t', Happening.cancelled c) ∈
        (atTurn ((race [.ok (some 7)]).turns 2)).history := by simp [hh]
    simp [hhistory] at hm

/-- A body shuts its own executor down, which cancels the task, and ends with a value at once. The
call returns the value, but no task has completed, and none is counted so. -/
theorem off_record_race :
    let steps : List (Step Nat) := [.act (.shutdownNow "pool"), .ok (some 7)]
    let w := atTurn ((race steps).turns 3)
    (Walked (.turn (.waiter 0)) w ∧ (atTurn (race steps)).TurnSince 0 (racer steps) w) ∧
    (w.waiterTurn 0).log = w.log ++ [⟨w.now, "call", .answered (.read (.ok (some 7)))⟩] ∧
    (atTurn (race steps)).handedIn 0 = [0] ∧ (w.waiterTurn 0).outcomeOf 0 = some .cancelled ∧
    ((w.waiterTurn 0).executors.map (·.counters.completed)) = [0] :=
  ⟨race_turnSince _ 2 rfl ⟨_, rfl, by simp⟩, rfl, rfl, rfl, rfl⟩

end TimedTasks

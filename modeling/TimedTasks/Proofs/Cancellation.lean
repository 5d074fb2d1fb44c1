import TimedTasks.Proofs.Settling
/-!
Cancellation for good. Once the future of a task is settled, no body of the task is called or polled
any more: a call needs an unsettled future, a body that was suspended is not let go on, and a body
that acts has had its poll. A body that is suspended when its task is cancelled is dropped at the
next turn of the task, whatever it waits for. And while a run is under way, a request to cancel that
may not interrupt it changes nothing.
-/

namespace TimedTasks

open World

variable {V : Type} {f f' : Focus} {w w' : World V} {i : Nat} {child : Child V}

/-! ## No more runs -/

/-- When the call of a body is the last thing that happened, the future of its task is unsettled. -/
theorem Reached.unsettled_at_call (hr : Reached f w) {t : Instant} {c : Nat}
    (hl : w.history.getLast? = some (t, .called c)) : w.outcomeOf c = none := by
  refine (hr.induct (P := fun _ w => ∀ t c, w.history.getLast? = some (t, .called c) →
    (∃ child ∈ w.children, child.cell = c) ∧ w.outcomeOf c = none)
    (fun jumps t c h => by simp [World.start] at h) ?_ t c hl).2
  intro f w f' w' hr op ih t c hl
  obtain ⟨l, hh, hadd, harises⟩ := op.adds
  -- No other thing than the call happens at once with it, and before it nothing was decided.
  have hjudged : ∀ child ∈ w.children, w.outcomeOf child.cell = none →
      (∀ p ∈ l, ∀ c work, p.2.verdict? c work = none) →
      (∃ child' ∈ w'.children, child'.cell = child.cell) ∧ w'.outcomeOf child.cell = none := by
    intro child hm hn hquiet
    obtain ⟨i, hi⟩ := List.mem_iff_getElem?.mp hm
    obtain ⟨child', hi', hk⟩ := op.later.children i child hi
    have hafter := (hr.op op).judged.outcome child' (List.mem_of_getElem? hi')
    rw [hk.cell, hk.work, hh, List.findSome?_append, ← hr.judged.outcome child hm, hn,
      List.findSome?_eq_none_iff.mpr fun p hp => hquiet p hp _ _] at hafter
    exact ⟨⟨child', List.mem_of_getElem? hi', hk.cell⟩, hafter⟩
  rw [hh] at hl
  cases hadd with
  | nothing =>
    rw [List.append_nil] at hl
    obtain ⟨⟨child, hm, rfl⟩, hn⟩ := ih t c hl
    exact hjudged child hm hn (by simp)
  | single h =>
    rw [List.getLast?_concat] at hl
    obtain ⟨-, rfl⟩ := Prod.mk.inj (Option.some.inj hl)
    obtain ⟨i, child, -, -, hi, rfl, hmay, -⟩ := harises _ (List.mem_singleton_self _)
    obtain ⟨cell, hcell, -, ho⟩ := mayStart_iff.mp hmay
    exact hjudged child (List.mem_of_getElem? hi) (by rw [outcomeOf, hcell]; exact ho)
      (by simp [Happening.verdict?])
  | drained e => simp at hl
  | aborted c r => simp at hl

theorem Move.no_runs (m : Move f w f' w') (hr : Reached f w) (hc : w.children[i]? = some child)
    (hs : w.isSettled child.cell = true) :
    ∃ l, w'.history = w.history ++ l ∧ ∀ p ∈ l, p.2.isRun child.cell = false := by
  obtain ⟨l, hl, hadd, harises⟩ := m.op.adds
  have hsettled : w.outcomeOf child.cell ≠ none := Option.isSome_iff_ne_none.mp hs
  refine ⟨l, hl, fun p hp => ?_⟩
  have ha := harises p hp
  cases hh : p.2 with
  | called c =>
    rw [hh] at ha
    obtain ⟨-, -, -, -, -, -, hmay, -⟩ := ha
    refine beq_eq_false_iff_ne.mpr ?_
    rintro rfl
    -- A settled task may not start a run.
    obtain ⟨cell, hcell, -, ho⟩ := mayStart_iff.mp hmay
    exact hsettled (by rw [outcomeOf, hcell]; exact ho)
  | polled c =>
    rw [hh] at ha
    obtain ⟨k, other, hf', hk, rfl, hfrom⟩ := ha
    refine beq_eq_false_iff_ne.mpr fun hcell => ?_
    obtain rfl := hr.owned.apart hk hc hcell
    obtain rfl := Option.some.inj (hk.symm.trans hc)
    rcases hfrom with hf | ⟨-, hn, he⟩
    · -- A body that acts is polled right after its call only.
      rw [hadd.eq_of_polled hp hh] at hl
      obtain ⟨t, hlast⟩ := (m.heeds.polls k other.cell hf' hl).2 (congrArg Focus.body? hf)
      exact hsettled (hr.unsettled_at_call hlast)
    · exact hsettled (outcomeOf_of_not_signalled hr hk he hn)
  | _ => rfl

/-- Once the future of a task is settled its body is never called or polled, and does not come to
act any more. -/
theorem Moves.no_runs (ms : Moves f w f' w') (hr : Reached f w) (hc : w.children[i]? = some child)
    (hs : w.isSettled child.cell = true) :
    (∃ l, w'.history = w.history ++ l ∧ ∀ p ∈ l, p.2.isRun child.cell = false) ∧
      (f.body? ≠ some i → f'.body? ≠ some i) := by
  refine (ms.induct hr (P := fun f' w' => Ops f w f' w' ∧
    (∃ l, w'.history = w.history ++ l ∧ ∀ p ∈ l, p.2.isRun child.cell = false) ∧
      (f.body? ≠ some i → f'.body? ≠ some i))
    ⟨.refl, ⟨[], (List.append_nil _).symm, by simp⟩, id⟩ ?_).2
  rintro f₁ w₁ f₂ w₂ hr₁ m ⟨ops, ⟨l, hl, hruns⟩, hstill⟩
  obtain ⟨child₁, hc₁, hk⟩ := ops.later.children i child hc
  obtain ⟨l', hl', hruns'⟩ := m.no_runs hr₁ hc₁ (hk.cell ▸ ops.later.isSettled hs)
  rw [hk.cell] at hruns'
  refine ⟨ops.trans m.op.ops, ⟨l ++ l', by rw [hl', hl, List.append_assoc], fun p hp => ?_⟩,
    fun hf hb => ?_⟩
  · exact (List.mem_append.mp hp).elim (hruns p) (hruns' p)
  · -- A body comes to act by a call or a poll.
    rcases m.op.enters hb with hb₁ | ⟨x, hx, hrun⟩
    · exact hstill hf hb₁
    · obtain rfl := Option.some.inj (hc₁.symm.trans hx)
      have hlast : ∃ h, l' = [(w₁.now, h)] ∧ h.isRun child.cell = true := by
        rw [hl', hk.cell] at hrun
        rcases hrun with hrun | ⟨hrun, -⟩ <;>
          exact ⟨_, List.append_cancel_left hrun, beq_self_eq_true _⟩
      obtain ⟨h, rfl, hh⟩ := hlast
      exact Bool.noConfusion ((hruns' _ (List.mem_singleton_self _)).symm.trans hh)

/-! ## The next turn -/

/-- A task begins its turn when it is the first that is ready. -/
theorem Op.takes (op : Op f w f' w') {r : TaskRef} (hf : f.task? ≠ some r)
    (hf' : f'.task? = some r) :
    f = .caller none ∧ f' = .turn r ∧
      ∃ rest, w.ready = r :: rest ∧ w' = { w with ready := rest } := by
  cases op with
  | take hready =>
    obtain rfl := Option.some.inj hf'
    exact ⟨rfl, rfl, _, hready, rfl⟩
  | _ => first | exact absurd hf' hf | cases hf'

/-- A child that was signalled is ready. -/
theorem Reached.ready_of_signalled (hr : Reached f w) (hc : w.children[i]? = some child)
    (he : child.hasEnded = false) (hs : w.isSignalled child.cell = true)
    (hf : f.task? ≠ some (.child i)) : .child i ∈ w.ready := by
  have hm := hr.placed.placed (.child i) (live_child.mpr ⟨child, hc, he⟩)
  rw [queue, List.mem_append, List.mem_append, Option.mem_toList] at hm
  rcases hm with hm | hm | hm
  · exact absurd hm hf
  · exact hm
  · -- One that waits was not signalled.
    obtain ⟨x, hx, hn, -⟩ := hr.asleep _ hm
    obtain rfl := Option.some.inj (hc.symm.trans hx)
    exact Bool.noConfusion (hs.symm.trans hn)

theorem Reached.signalled (hr : Reached f w) (hc : w.children[i]? = some child)
    (he : child.hasEnded = false) (hs : w.isSettled child.cell = true) :
    w.isSignalled child.cell = true := by
  cases hn : w.isSignalled child.cell with
  | true => rfl
  | false =>
    have ho := outcomeOf_of_not_signalled hr hc he hn
    rw [isSettled, ho] at hs
    cases hs

/-- The turn of a child that was signalled while its body was suspended drops the body. -/
theorem World.turn_drops {rest : List TaskRef} {on : Wait} {steps : List (Step V)}
    (hready : w.ready = .child i :: rest) (hc : w.children[i]? = some child)
    (hst : child.stage = .suspended on steps) (hs : w.isSignalled child.cell = true) :
    w.turn = ((({ w with ready := rest } : World V).note child.name .dropped).endRun
      child.cell).giveUp i child := by
  have hs' : isSignalled { w with ready := rest } child.cell = true := hs
  unfold turn
  rw [hready]
  dsimp only
  unfold taskTurn childTurn
  dsimp only
  rw [hc]
  dsimp only
  rw [hst]
  exact suspendedTurn_of_signalled hs' i on steps

/-- A child has had no turn yet: it is as it was, and ready for one. -/
structure Untouched (f : Focus) (w : World V) (i : Nat) (child : Child V) : Prop where
  turn : f.task? ≠ some (.child i)
  child : w.children[i]? = some child
  ready : .child i ∈ w.ready

/-- On the way between two states, the first turn of a child dropped its body and ended it. -/
def Drops (f : Focus) (w : World V) (f' : Focus) (w' : World V) (i : Nat) (child : Child V) :
    Prop :=
  ∃ (w₁ : World V) (rest : List TaskRef), Moves f w (.caller none) w₁ ∧
    Untouched (.caller none) w₁ i child ∧ w₁.ready = .child i :: rest ∧
    w₁.turn = ((({ w₁ with ready := rest } : World V).note child.name .dropped).endRun
      child.cell).giveUp i child ∧
    (∀ x, w₁.turn.children[i]? = some x → x.hasEnded = true) ∧
    Moves (.turn (.child i)) { w₁ with ready := rest } f' w'

/-- A child whose task is settled while its body is suspended is left as it is until its next turn,
and that turn drops the body. -/
theorem Moves.until_dropped (ms : Moves f w f' w') (hr : Reached f w)
    (hc : w.children[i]? = some child) {on : Wait} {steps : List (Step V)}
    (hst : child.stage = .suspended on steps) (hs : w.isSettled child.cell = true)
    (hf : f.task? ≠ some (.child i)) : Untouched f' w' i child ∨ Drops f w f' w' i child := by
  have he : child.hasEnded = false := by rw [Child.hasEnded, hst]
  have untouched : ∀ {f₁ : Focus} {w₁ : World V}, Ops f w f₁ w₁ → w₁.children[i]? = some child →
      f₁.task? ≠ some (.child i) →
      w₁.isSignalled child.cell = true ∧ Untouched f₁ w₁ i child := by
    intro f₁ w₁ ops hc₁ hf₁
    have hsig := (hr.ops ops).signalled hc₁ he (ops.later.isSettled hs)
    exact ⟨hsig, hf₁, hc₁, (hr.ops ops).ready_of_signalled hc₁ he hsig hf₁⟩
  refine (ms.induct hr (P := fun f' w' => Moves f w f' w' ∧
    (Untouched f' w' i child ∨ Drops f w f' w' i child))
    ⟨.refl, .inl (untouched .refl hc hf).2⟩ ?_).2
  rintro f₁ w₁ f₂ w₂ hr₁ m ⟨ms₁, hu | ⟨w₀, rest, h₀, hu, hready, hturn, hended, h₁⟩⟩
  · refine ⟨ms₁.trans m.moves, ?_⟩
    by_cases hf₂ : f₂.task? = some (.child i)
    · obtain ⟨rfl, rfl, rest, hready, rfl⟩ := m.op.takes hu.turn hf₂
      have hturn := turn_drops hready hu.child hst (untouched ms₁.ops hu.child hu.turn).1
      refine .inr ⟨w₁, rest, ms₁, hu, hready, hturn, ?_, .refl⟩
      have hframe := finish_frame (w := (({ w₁ with ready := rest } : World V).note child.name
        .dropped).endRun child.cell) .stopped hu.child
      rw [hturn]
      exact ended_of_modify hframe.2.1
    · exact .inl (untouched (ms₁.trans m.moves).ops (m.op.keeps hu.turn hu.child) hf₂).2
  · exact ⟨ms₁.trans m.moves, .inr ⟨w₀, rest, h₀, hu, hready, hturn, hended, h₁.trans m.moves⟩⟩

/-! ## Requests that may not interrupt a run -/

/-- Every end of the only run of a task decides its outcome. -/
theorem Work.verdict?_isSome {work : Work V} (hk : work.kind ≠ .periodic) (r : RunEnd V) :
    (work.verdict? r).isSome = true := by
  cases r with
  | returned value =>
    rw [verdict?, if_neg hk]
    rfl
  | _ => rfl

/-- A request that may not interrupt a run is refused while one is under way. -/
theorem Reached.cancel_during_run (hr : Reached f w) (hc : w.children[i]? = some child)
    (hway : w.underWay child.cell = true) : w.cancel child.cell false = (w, false) := by
  apply cancel_refused
  cases ho : w.outcomeOf child.cell with
  | some o => exact cancellable_of_settled (by rw [isSettled, ho]; rfl) false
  | none =>
    have hphase := (hr.phased child (List.mem_of_getElem? hc) ho).mp hway
    obtain ⟨cell, hcell, hp⟩ := Option.map_eq_some_iff.mp hphase
    simp [cancellable, hcell, hp]

/-- A task that runs once, whose future is unsettled and of which no run is under way, has not been
called. -/
theorem Reached.not_called (hr : Reached f w) (hc : w.children[i]? = some child)
    (hk : child.work.kind ≠ .periodic) (ho : w.outcomeOf child.cell = none)
    (hway : w.underWay child.cell = false) (t : Instant) :
    (t, .called child.cell) ∉ w.history := by
  intro hm
  have hjudged := hr.judged.outcome child (List.mem_of_getElem? hc)
  rw [ho] at hjudged
  have hquiet := List.findSome?_eq_none_iff.mp hjudged.symm
  -- An end of its run would have settled the future; so the last thing to be found is a call.
  have hopens : ∀ b, w.history.reverse.findSome? (fun p => p.2.opens? child.cell) = some b →
      b = true := by
    intro b hb
    obtain ⟨p, hp, hb⟩ := List.exists_of_findSome?_eq_some hb
    have hverdict := hquiet p (List.mem_reverse.mp hp)
    cases hh : p.2 with
    | called c =>
      rw [hh, Happening.opens?] at hb
      split at hb
      · exact (Option.some.inj hb).symm
      · cases hb
    | ended c r =>
      rw [hh, Happening.opens?] at hb
      split at hb
      · rename_i hcell
        rw [hh, Happening.verdict?, if_pos hcell] at hverdict
        have := child.work.verdict?_isSome hk r
        rw [hverdict] at this
        cases this
      · cases hb
    | _ => simp [hh, Happening.opens?] at hb
  unfold underWay at hway
  cases hfind : w.history.reverse.findSome? fun p => p.2.opens? child.cell with
  | none =>
    have := List.findSome?_eq_none_iff.mp hfind _ (List.mem_reverse.mpr hm)
    simp [Happening.opens?] at this
  | some b =>
    rw [hfind] at hway
    obtain rfl := hopens b hfind
    cases hway

/-- Once the future of a task is cancelled its body is never called or polled, and when a poll that
was going on is over it never acts again. If the body was suspended then, the child is left as it
was, and ready, until its next turn, and that turn only drops the body. A request to cancel that may
not interrupt a run is granted only if none is under way; a task that runs once, if it is granted,
has never been called and never will be. While a run is under way such a request changes nothing. -/
theorem Reached.cancelled_for_good (hr : Reached f w) (hc : w.children[i]? = some child) :
    (w.outcomeOf child.cell = some .cancelled → ∀ (f₁ : Focus) (w₁ : World V), Moves f w f₁ w₁ →
      (∃ l, w₁.history = w.history ++ l ∧ ∀ p ∈ l, p.2.isRun child.cell = false) ∧
      (f₁.body? ≠ some i → ∀ (f₂ : Focus) (w₂ : World V), Moves f₁ w₁ f₂ w₂ → f₂.body? ≠ some i) ∧
      (∀ on steps, child.stage = .suspended on steps → f.task? ≠ some (.child i) →
        Untouched f₁ w₁ i child ∨ Drops f w f₁ w₁ i child)) ∧
    ((w.cancel child.cell false).2 = true → w.underWay child.cell = false ∧
      (child.work.kind ≠ .periodic → ∀ (f₁ : Focus) (w₁ : World V),
        Moves f (w.cancel child.cell false).1 f₁ w₁ → ∀ t, (t, .called child.cell) ∉ w₁.history)) ∧
    (w.underWay child.cell = true → w.cancel child.cell false = (w, false)) := by
  refine ⟨fun ho f₁ w₁ ms => ?_, fun hg => ?_, hr.cancel_during_run hc⟩
  · have hs : w.isSettled child.cell = true := by rw [isSettled, ho]; rfl
    refine ⟨(ms.no_runs hr hc hs).1, fun hf f₂ w₂ ms' => ?_,
      fun on steps hst hf => ms.until_dropped hr hc hst hs hf⟩
    obtain ⟨child₁, hc₁, hk⟩ := ms.ops.later.children i child hc
    exact (ms'.no_runs (hr.ops ms.ops) hc₁ (hk.cell ▸ ms.ops.later.isSettled hs)).2 hf
  · have hway : w.underWay child.cell = false := by
      cases hway : w.underWay child.cell with
      | false => rfl
      | true =>
        rw [hr.cancel_during_run hc hway] at hg
        cases hg
    refine ⟨hway, fun hk f₁ w₁ ms t hm => ?_⟩
    obtain ⟨hn, ho⟩ := cancel_granted_iff.mp hg
    rw [cancel_snd] at hg
    have hc' : (w.cancel child.cell false).1.children[i]? = some child := by
      rw [(cancel_frame ..).2.2.1, hc]
    obtain ⟨⟨l, hl, hruns⟩, -⟩ := ms.no_runs (hr.op (.cancel hg)) hc' (by rw [isSettled, ho]; rfl)
    rw [hl, cancel_history_of_granted hg] at hm
    rcases List.mem_append.mp hm with hm | hm
    · rcases List.mem_append.mp hm with hm | hm
      · exact hr.not_called hc hk hn hway t hm
      · cases List.mem_singleton.mp hm
    · exact Bool.noConfusion ((hruns _ hm).symm.trans (beq_self_eq_true child.cell))

/-- An executor has one task, which is to sleep for five nanoseconds. -/
def sleeper : World Nat :=
  (World.start true).after
    [.call (.create "pool" none none none none),
      .call (.submit "pool" "nap" none (.steps [.sleep ⟨5, by decide⟩, .ok (some 7)]))]

/-- The state in which the time of the task is over and it is ready to go on. -/
def awake : World Nat := sleeper.turn.moveTo ⟨5, by decide⟩

theorem cancelled_for_good_awake :
    (∃ child, awake.children[0]? = some child ∧
      Drops (.caller none) (awake.cancel 0 true).1 (.caller none) (awake.cancel 0 true).1.turn 0
        child) ∧
    (0, .called 0) ∉ (sleeper.cancel 0 false).1.turn.history ∧
    awake.cancel 0 false = (awake, false) := by
  have hasleep : Walked (.caller none) sleeper := (Walked.start true).after _
  have hawake : Walked (.caller none) awake :=
    (hasleep.moves ((turn_leads hasleep.reached).moves hasleep)).moves
      ((moveTo_way (by decide)).moves (hasleep.moves ((turn_leads hasleep.reached).moves hasleep)))
  have hgone : Walked (.caller none) (awake.cancel 0 true).1 :=
    hawake.moves ((cancel_leads 0 true hawake.reached).moves hawake)
  have hspared : Walked (.caller none) (sleeper.cancel 0 false).1 :=
    hasleep.moves ((cancel_leads 0 false hasleep.reached).moves hasleep)
  obtain ⟨hcancelled, -, -⟩ := Reached.cancelled_for_good hgone.reached (i := 0) rfl
  obtain ⟨-, hgranted, -⟩ := Reached.cancelled_for_good hasleep.reached (i := 0) rfl
  obtain ⟨-, -, hrefused⟩ := Reached.cancelled_for_good hawake.reached (i := 0) rfl
  refine ⟨⟨_, rfl, ?_⟩, ?_, hrefused rfl⟩
  · obtain ⟨-, -, hnext⟩ := hcancelled rfl _ _ ((turn_leads hgone.reached).moves hgone)
    refine (hnext _ _ rfl (by simp [Focus.task?])).resolve_left fun h => ?_
    have := h.child
    cases this
  · exact (hgranted rfl).2 (by simp [Work.kind]) _ _ ((turn_leads hspared.reached).moves hspared) 0

end TimedTasks

import TimedTasks.Proofs.Waiting
/-!
The last run of a periodic task. Where the settings of an executor have its periodic tasks stop at a
shutdown, no run of such a task starts after one. A task that is not in a run then is cancelled at
once. A run that is under way is left alone, and after it the task ends, unless the run succeeds and
the next due time cannot be represented: such a task goes on to wait, for nothing but to be
cancelled.
-/

namespace TimedTasks

open World

variable {V : Type} {f f' : Focus} {w w' : World V} {e i : Nat} {child : Child V} {x : Executor}

namespace World

/-! ## A shutdown and the runs under way -/

theorem applyPolicies_history (w : World V) (s : Settings) (is : List Nat) :
    ∃ l, (w.applyPolicies s is).history = w.history ++ l ∧ ∀ p ∈ l, ∃ c, p.2 = .cancelled c := by
  induction is generalizing w with
  | nil => exact ⟨[], (List.append_nil _).symm, by simp⟩
  | cons i is ih =>
    obtain ⟨l, hl, hcancelled⟩ := ih (w.seeTo s i)
    obtain ⟨l₀, hl₀, hfirst⟩ : ∃ l₀, (w.seeTo s i).history = w.history ++ l₀ ∧
        ∀ p ∈ l₀, ∃ c, p.2 = .cancelled c := by
      rcases w.seeTo_cases s i with ⟨hw, -⟩ | ⟨child, notices, -, hw⟩
      · exact ⟨[], by rw [hw, List.append_nil], by simp⟩
      · refine ⟨_, by rw [hw]; exact cancel_history .., fun p hp => ?_⟩
        split at hp
        · exact ⟨_, congrArg Prod.snd (List.mem_singleton.mp hp)⟩
        · cases hp
    refine ⟨l₀ ++ l, by rw [applyPolicies_cons, hl, hl₀, List.append_assoc], fun p hp => ?_⟩
    exact (List.mem_append.mp hp).elim (hfirst p) (hcancelled p)

theorem policies_history (w : World V) (e : Nat) (x : Executor) :
    ∃ l, ((w.shuttingDown e).applyPolicies x.settings x.registry).history = w.history ++ l ∧
      ∀ p ∈ l, ∀ c, p.2.opens? c = none := by
  obtain ⟨l, hl, hcancelled⟩ := (w.shuttingDown e).applyPolicies_history x.settings x.registry
  have hbegun : (w.shuttingDown e).history =
      w.history ++ [(w.now, .asked e), (w.now, .draining e)] := List.append_assoc ..
  refine ⟨_, by rw [hl, hbegun, List.append_assoc], fun p hp c => ?_⟩
  rcases List.mem_append.mp hp with hp | hp
  · simp only [List.mem_cons, List.not_mem_nil, or_false] at hp
    rcases hp with rfl | rfl <;> rfl
  · obtain ⟨k, hk⟩ := hcancelled p hp
    rw [hk]
    rfl

/-- A shutdown begins and ends no run. -/
theorem shutdown_history (hx : w.executors[e]? = some x) (hrun : w.isRunning e = true) :
    ∃ l, (w.shutdown e).history = w.history ++ l ∧ ∀ p ∈ l, ∀ c, p.2.opens? c = none := by
  obtain ⟨l, hl, hquiet⟩ := w.policies_history e x
  have hlast : ∀ w₁ : World V, ∃ l₁, (w₁.beginDrain e).history = w₁.history ++ l₁ ∧
      ∀ p ∈ l₁, ∀ c, p.2.opens? c = none := by
    intro w₁
    unfold beginDrain
    dsimp only
    split
    · exact ⟨[(w₁.now, .terminated e)], rfl, by simp [Happening.opens?]⟩
    · exact ⟨[], (List.append_nil _).symm, by simp⟩
  obtain ⟨l₁, hl₁, hquiet₁⟩ := hlast ((w.shuttingDown e).applyPolicies x.settings x.registry)
  refine ⟨l ++ l₁, by rw [shutdown_of_running hx hrun, hl₁, hl, List.append_assoc],
    fun p hp c => ?_⟩
  exact (List.mem_append.mp hp).elim (hquiet p · c) (hquiet₁ p · c)

/-- What a shutdown stops may not run any more. -/
theorem policies_mayRun (hx : w.executors[e]? = some x) {kind : ChildKind}
    (hs : stopsAtShutdown x.settings kind = true) :
    ((w.shuttingDown e).applyPolicies x.settings x.registry).mayRun e kind = false := by
  rw [mayRun, (applyPolicies_frame ..).2, shuttingDown_executor hx]
  simp [hs]

end World

/-- A task that a shutdown stops, and of which no run is under way, is settled by it; in any case it
may not run any more. -/
theorem Reached.stopped_by_shutdown {b : Option Nat} (hr : Reached (.caller b) w)
    (hx : w.executors[e]? = some x) (hrun : w.isRunning e = true)
    (hc : w.children[i]? = some child) (he : child.executor = e)
    (hs : stopsAtShutdown x.settings child.work.kind = true) :
    (w.underWay child.cell = false → (w.shutdown e).isSettled child.cell = true) ∧
      (w.shutdown e).mayRun e child.work.kind = false := by
  obtain ⟨hleads, hpurged⟩ := policies_leads hx hrun (b := b)
  have hr' := hleads.reached hr
  have hlater := (beginDrain_leads (hpurged hr) hr').ops.later
  have hmay := policies_mayRun (w := w) hx hs
  obtain ⟨hchildren, hexecutors⟩ := (w.shuttingDown e).applyPolicies_frame x.settings x.registry
  rw [shutdown_of_running hx hrun]
  constructor
  · intro hway
    refine hlater.isSettled ?_
    cases hn : outcomeOf ((w.shuttingDown e).applyPolicies x.settings x.registry) child.cell with
    | some o => rw [isSettled, hn]; rfl
    | none =>
      have hc' : ((w.shuttingDown e).applyPolicies x.settings x.registry).children[i]? =
          some child := by
        rw [hchildren]
        exact hc
      have hm := List.mem_of_getElem? hc'
      have hphase := hr'.running_of_refused hc' hn (hpurged hr child hm he (he ▸ hmay))
      obtain ⟨l, hl, hquiet⟩ := w.policies_history e x
      rw [← underWay_keep hl (hquiet · · _), (hr'.phased child hm hn).mpr hphase] at hway
      cases hway
  · refine hlater.mayRun_eq_false ?_ hmay
    rw [hexecutors]
    exact (List.getElem?_eq_some_iff.mp (shuttingDown_executor hx)).1

/-! ## The runs after it -/

/-- No run of a task starts that its executor may not run. -/
theorem Ops.never_called (ops : Ops f w f' w') (hr : Reached f w)
    (hc : w.children[i]? = some child)
    (hm : w.mayRun child.executor child.work.kind = false) :
    ∃ l, w'.history = w.history ++ l ∧ ∀ p ∈ l, p.2 ≠ .called child.cell := by
  refine (ops.induct hr (P := fun f' w' => Ops f w f' w' ∧
    ∃ l, w'.history = w.history ++ l ∧ ∀ p ∈ l, p.2 ≠ .called child.cell)
    ⟨.refl, [], (List.append_nil _).symm, by simp⟩ ?_).2
  rintro f₁ w₁ f₂ w₂ hr₁ op ⟨ops₁, l, hl, hnever⟩
  obtain ⟨l', hl', -, harises⟩ := op.adds
  refine ⟨ops₁.trans op.ops, l ++ l', by rw [hl', hl, List.append_assoc], fun p hp => ?_⟩
  rcases List.mem_append.mp hp with hp | hp
  · exact hnever p hp
  · intro hcalled
    have ha := harises p hp
    rw [hcalled] at ha
    obtain ⟨k, other, -, -, hk, hcell, -, hmay, -⟩ := ha
    -- It is the same task, which may not run later either.
    obtain ⟨child₁, hc₁, hkept⟩ := ops₁.later.children i child hc
    obtain rfl := hr₁.owned.apart hk hc₁ (hcell.trans hkept.cell.symm)
    obtain rfl := Option.some.inj (hk.symm.trans hc₁)
    rw [hkept.executor, hkept.work, ops₁.later.mayRun_eq_false (hr.owned.executor_lt hc) hm] at hmay
    cases hmay

/-- Whether a periodic task has had a run that succeeded, and has no due time after it that could be
represented. -/
def World.OutOfTime (w : World V) (child : Child V) : Prop :=
  ∃ pace runs t value, child.work = .periodic pace runs ∧
    (t, .ended child.cell (.returned value)) ∈ w.history ∧ pace.next? (w.dueTime child) t = none

/-- A periodic task that its executor may not run, when no task is ready: it has ended, a run of it
is under way, or it has no due time that could be represented. -/
theorem Walked.rests (h : Walked (.caller none) w) (hready : w.ready = [])
    (hc : w.children[i]? = some child) (hk : child.work.kind = .periodic)
    (hm : w.mayRun child.executor child.work.kind = false) :
    (child.hasEnded = true ∧ w.isSettled child.cell = true) ∨ w.underWay child.cell = true ∨
      w.OutOfTime child := by
  cases he : child.hasEnded with
  | true => exact .inl ⟨rfl, (h.reached.hasEnded_eq hready hc) ▸ he⟩
  | false =>
    refine .inr ?_
    have hwaits := h.child_waits hready hc he
    cases hway : w.underWay child.cell with
    | true => exact .inl rfl
    | false =>
      have hidle := hwaits.idle hway
      cases hw : child.work with
      | periodic pace runs =>
        simp only [AwaitsTime, hw] at hidle
        rcases hidle with ⟨-, hmay⟩ | ⟨t, value, ht, hnext⟩
        · rw [hk, hmay] at hm
          cases hm
        · exact .inr ⟨pace, runs, t, value, hw, ht, hnext⟩
      | _ =>
        rw [hw] at hk
        cases hk

/-- After the shutdown of an executor that stops its periodic tasks then, no run of such a task
starts any more. The future of a task that is not in a run is settled at once. Any other task goes
on with its run; and when no task is ready, the task has ended, or this run is still under way, or a
run has succeeded and the task has no due time that could be represented. -/
theorem Walked.last_run {b : Option Nat} (h : Walked (.caller b) w)
    (hx : w.executors[e]? = some x) (hrun : w.isRunning e = true)
    (hkeep : x.settings.keepPeriodic = false) (hc : w.children[i]? = some child)
    (he : child.executor = e) (hk : child.work.kind = .periodic) {f₁ : Focus} {w₁ : World V}
    (ms : Moves (.caller b) (w.shutdown e) f₁ w₁) :
    (∃ l, w₁.history = w.history ++ l ∧ ∀ p ∈ l, p.2 ≠ .called child.cell) ∧
    (w.underWay child.cell = false → w₁.isSettled child.cell = true) ∧
    (f₁ = .caller none → w₁.ready = [] → ∃ child₁, w₁.children[i]? = some child₁ ∧
      ((child₁.hasEnded = true ∧ w₁.isSettled child.cell = true) ∨
        w.underWay child.cell = true ∧
          (w₁.underWay child.cell = true ∨ w₁.OutOfTime child₁))) := by
  have hr := h.reached
  have hstops : stopsAtShutdown x.settings child.work.kind = true := by
    rw [hk]
    simp [stopsAtShutdown, hkeep]
  obtain ⟨hsettles, hmay⟩ := hr.stopped_by_shutdown hx hrun hc he hstops
  have hshut := shutdown_leads (List.getElem?_eq_some_iff.mp hx).1 (b := b) hr
  have hw' : Walked (.caller b) (w.shutdown e) := h.moves (hshut.moves h)
  obtain ⟨child', hc', hl'⟩ := hshut.ops.later.children i child hc
  have hsettled : w.underWay child.cell = false → w₁.isSettled child.cell = true :=
    fun hway => ms.ops.later.isSettled (hsettles hway)
  refine ⟨?_, hsettled, ?_⟩
  · obtain ⟨l, hl, hquiet⟩ := shutdown_history hx hrun
    obtain ⟨l₁, hl₁, hnever⟩ := ms.ops.never_called hw'.reached hc'
      (by rw [hl'.executor, hl'.work, he, hmay])
    rw [hl'.cell] at hnever
    refine ⟨l ++ l₁, by rw [hl₁, hl, List.append_assoc], fun p hp => ?_⟩
    rcases List.mem_append.mp hp with hp | hp
    · intro hcalled
      have := hquiet p hp child.cell
      simp [hcalled, Happening.opens?] at this
    · exact hnever p hp
  · rintro rfl hready
    obtain ⟨child₁, hc₁, hl₁⟩ := (hshut.ops.trans ms.ops).later.children i child hc
    have hmay₁ : w₁.mayRun child₁.executor child₁.work.kind = false := by
      rw [hl₁.executor, hl₁.work, he]
      refine ms.ops.later.mayRun_eq_false ?_ hmay
      exact Nat.lt_of_lt_of_le (List.getElem?_eq_some_iff.mp hx).1
        hshut.ops.later.executors.length_le
    refine ⟨child₁, hc₁, ?_⟩
    rw [← hl₁.cell] at hsettled ⊢
    rcases (hw'.moves ms).rests hready hc₁ (hl₁.work ▸ hk) hmay₁ with hended | hgoes
    · exact .inl hended
    · cases hway : w.underWay child₁.cell with
      | true => exact .inr ⟨rfl, hgoes⟩
      | false =>
        have hs := hsettled hway
        exact .inl ⟨(hw'.moves ms).reached.hasEnded_eq hready hc₁ ▸ hs, hs⟩

/-- An executor that stops its periodic tasks at a shutdown has two of them: one is in a run, and
its period is too long for a second one; the other waits for its first run. -/
def twoPaces : World Nat :=
  (World.start true).after
    [.call (.create "pool" none none (some false) none),
      .call (.repeating "pool" "long" (.fixedRate .longest) .zero
        [.steps [.sleep ⟨6, by decide⟩]]),
      .call (.repeating "pool" "short" (.fixedRate ⟨8, by decide⟩) ⟨9, by decide⟩ [.steps []]),
      .settle]

/-- The state in which the run is over, after a shutdown. -/
def pacesShut : World Nat := (twoPaces.shutdown 0).after [.advance ⟨6, by decide⟩]

theorem walked_twoPaces : Walked (.caller none) twoPaces := (Walked.start true).after _

theorem moves_pacesShut : Moves (.caller none) (twoPaces.shutdown 0) (.caller none) pacesShut := by
  have h := walked_twoPaces
  have hshut : Walked (.caller none) (twoPaces.shutdown 0) :=
    h.moves ((shutdown_leads (by decide) h.reached).moves h)
  exact (after_way _ hshut.reached).moves hshut

theorem last_run_pacesShut :
    pacesShut.isSettled 1 = true ∧ ∃ child, pacesShut.children[0]? = some child ∧
      pacesShut.OutOfTime child := by
  have h := walked_twoPaces
  have ms := moves_pacesShut
  obtain ⟨-, -, hlong⟩ := Walked.last_run h (i := 0) rfl rfl rfl rfl rfl rfl ms
  obtain ⟨-, hshort, -⟩ := Walked.last_run h (i := 1) rfl rfl rfl rfl rfl rfl ms
  refine ⟨hshort rfl, ?_⟩
  obtain ⟨child, hc, hends | ⟨-, hgoes | hout⟩⟩ := hlong rfl rfl
  · have hopen : pacesShut.isSettled 0 = false := rfl
    exact Bool.noConfusion (hends.2.symm.trans hopen)
  · have hover : pacesShut.underWay 0 = false := rfl
    exact Bool.noConfusion (hgoes.symm.trans hover)
  · exact ⟨child, hc, hout⟩

/-- The task with the long period keeps its executor from terminating after its last run. -/
theorem unsettled_after_last_run :
    (twoPaces.isRunning 0 = true ∧
      (twoPaces.executors.map (·.settings.keepPeriodic)) = [false] ∧
      twoPaces.underWay 0 = true) ∧
    Moves (.caller none) (twoPaces.shutdown 0) (.caller none) pacesShut ∧ pacesShut.ready = [] ∧
    pacesShut.underWay 0 = false ∧ pacesShut.isSettled 0 = false ∧
    pacesShut.stateOf? 0 = some .draining :=
  ⟨⟨rfl, rfl, rfl⟩, moves_pacesShut, rfl, rfl, rfl, rfl⟩

end TimedTasks

import TimedTasks.Executor.Scenario
import TimedTasks.Proofs.Turns
/-!
A scenario, made of operations. What a waiter or a watcher does in its turn is a sequence of
operations; so is everything that happens while turns are taken and the clock moves, and so are the
steps of a scenario.
-/

namespace TimedTasks

theorem Duration.le_of_add? {t d target : Duration} (h : t.add? d = some target) : t ≤ target := by
  have hsum := Duration.ofNanos?_eq_some_iff.mp h
  exact Nat.le_trans (Nat.le_add_right _ _) (Nat.le_of_eq hsum.symm)

namespace World

variable {V : Type} {f : Focus} {w w' : World V}

/-! ## Waiters -/

section Waiters

variable {j : Nat} {x : Waiter V} {on : Awaited}

theorem finishWaiter_leads (name : String) (a : Answer V) :
    Leads (.turn (.waiter j)) w (.caller none) (w.finishWaiter j name a) :=
  (Leads.op (fun _ => .answer) (fun _ => .waiter rfl) rfl).trans (note_leads _ _)

theorem nameBatch_leads (name : String) (n : Nat) {cells : List Nat}
    (hc : ∀ c ∈ cells, c < w.cells.length) : Leads f w f (w.nameBatch name n cells) := by
  induction cells generalizing w n with
  | nil => exact .refl
  | cons c cells ih =>
    refine (nameFuture_leads _ (hc c List.mem_cons_self)).trans (ih _ fun k hk => ?_)
    exact hc k (List.mem_cons_of_mem c hk)

theorem answerAll_leads (name : String) {cells : List Nat}
    (hc : ∀ c ∈ cells, c < w.cells.length) :
    Leads (.turn (.waiter j)) w (.caller none) (w.answerAll j name cells) :=
  (nameBatch_leads name 0 hc).trans (finishWaiter_leads _ _)

/-- The cells of a batch are there. -/
theorem batch_cell_lt (hr : Reached f w) {b : Nat} {batch : Batch V}
    (hb : w.batches[b]? = some batch) : ∀ c ∈ batch.cells, c < w.cells.length := by
  intro c hc
  rw [(hr.batched.tallied b batch hb).cells] at hc
  obtain ⟨child, hchild, -, rfl⟩ := mem_members.mp hc
  obtain ⟨i, hi⟩ := List.mem_iff_getElem?.mp hchild
  exact hr.owned.cell_lt hi

/-- A waiter that is done with what it waited for, or with waiting, tells its answer. -/
theorem conclude_leads (inTime : Bool) (hq : x.request.Suits on)
    (hb : ∀ b, on = .batch b → b < w.batches.length) :
    Leads (.turn (.waiter j)) w (.caller none) (w.conclude j x on inTime) := by
  have batch : ∀ {b}, (∀ b', Awaited.batch b = .batch b' → b' < w.batches.length) →
      ∃ batch, w.batches[b]? = some batch := fun hb =>
    ⟨_, List.getElem?_eq_getElem (hb _ rfl)⟩
  unfold conclude
  cases hreq : x.request with
  | get c bound =>
    rw [hreq] at hq
    obtain rfl : on = .cell c := hq
    dsimp only
    split <;> exact finishWaiter_leads _ _
  | termination e bound =>
    rw [hreq] at hq
    obtain rfl : on = .termination e := hq
    exact finishWaiter_leads _ _
  | invokeAll e bodies bound =>
    rw [hreq] at hq
    obtain ⟨b, rfl⟩ := hq
    obtain ⟨batch, hbatch⟩ := batch hb
    dsimp only
    rw [hbatch]
    apply Leads.known
    intro hr
    have hcells := batch_cell_lt hr hbatch
    dsimp only
    split
    · exact answerAll_leads _ hcells
    · refine (cancelAll_leads batch.cells).trans ((report_leads _).trans (answerAll_leads _ ?_))
      intro c hc
      exact Nat.lt_of_lt_of_le (hcells c hc) (cancelAll_later w _).cells.length_le
  | invokeAny e bodies bound =>
    rw [hreq] at hq
    obtain ⟨b, rfl⟩ := hq
    obtain ⟨batch, hbatch⟩ := batch hb
    dsimp only
    rw [hbatch]
    refine (cancelAll_leads batch.cells).trans ?_
    dsimp only
    split
    · exact (report_leads _).trans (finishWaiter_leads _ _)
    · exact finishWaiter_leads _ _

theorem checkWaiter_leads {deadline : Option Instant} (hx : w.waiters[j]? = some x)
    (he : x.Looks on deadline) (hq : x.request.Suits on)
    (hb : ∀ b, on = .batch b → b < w.batches.length) :
    Leads (.turn (.waiter j)) w (.caller none) (w.checkWaiter j x on deadline) := by
  unfold checkWaiter
  split
  · exact conclude_leads true hq hb
  · rename_i hc
    have hc := Bool.not_eq_true _ ▸ hc
    split
    · rename_i t
      split
      · exact conclude_leads false hq hb
      · rename_i ht
        refine .op (fun _ => .wait hx he hq hb hc fun t' ht' => ?_) (fun _ => .waiter rfl) rfl
        obtain rfl := Option.some.inj ht'
        exact Nat.lt_of_not_le ht
    · exact .op (fun _ => .wait hx he hq hb hc (by simp)) (fun _ => .waiter rfl) rfl

/-- A batch comes in, and its caller waits for it. -/
theorem startBatch_leads {e : Nat} {work : Nat → Body V → Work V} {bodies : List (Body V)}
    (bound : Option Duration) (hx : w.waiters[j]? = some x) (he : x.stage = .created)
    (hq : ∀ b, x.request.Suits (.batch b)) (hr : w.isRunning e = true)
    (hw : work = .oneOfAll ∨ work = .oneOfAny) (hn : bodies ≠ []) :
    Leads (.turn (.waiter j)) w (.caller none) (w.startBatch j x e work bodies bound) := by
  have hframe := openBatch_frame w e x.name work bodies
  have hopen : Leads (.turn (.waiter j)) w (.turn (.waiter j)) (w.openBatch e x.name work bodies) :=
    .op (fun _ => .openBatch x.name hr hw hn) (fun _ => .waiter rfl) hframe.2.2.2.1
  -- The caller has not looked yet, so it checks its batch at once.
  refine hopen.trans (checkWaiter_leads ?_ (.inl he) (hq _) fun b hb => ?_)
  · rw [hframe.1]
    exact hx
  · obtain rfl := Awaited.batch.inj hb
    rw [openBatch_batches, List.length_append]
    exact Nat.lt_succ_self _

/-- Cells that were added are there. -/
theorem addCancelledCells_lt (w : World V) (n : Nat) :
    ∀ c ∈ (w.addCancelledCells n).2, c < (w.addCancelledCells n).1.cells.length := by
  induction n generalizing w with
  | zero => simp [addCancelledCells]
  | succ n ih =>
    intro c hc
    rcases List.mem_cons.mp hc with rfl | hc
    · rw [addCancelledCells_cells, List.length_append, List.length_replicate]
      show w.cells.length < w.cells.length + (n + 1)
      omega
    · exact ih (w.addCell { outcome := some .cancelled }).1 c hc

theorem reject_leads {e : Nat} (name : String) (a : Answer V) :
    Leads (.turn (.waiter j)) w (.caller none) ((w.reject e).1.finishWaiter j name a) :=
  (Leads.op (fun _ => .refuse e) (fun _ => .waiter rfl) rfl).trans (finishWaiter_leads _ _)

theorem beginAll_leads {e : Nat} {bodies : List (Body V)} {bound : Option Duration}
    (hx : w.waiters[j]? = some x) (he : x.stage = .created)
    (hq : x.request = .invokeAll e bodies bound) :
    Leads (.turn (.waiter j)) w (.caller none) (w.beginAll j x e bodies bound) := by
  unfold beginAll
  dsimp only
  have hreport := report_leads (f := .turn (.waiter j)) (w := w)
    (.invokeAllCalled (w.nameOf e) bodies.length bound)
  refine hreport.trans ?_
  split
  · exact reject_leads _ _
  · rename_i hr
    split
    · refine (report_leads .cancelledUpFront).trans ?_
      refine (Leads.op (fun _ => .grant bodies.length) (fun _ => .waiter rfl) ?_).trans
        (answerAll_leads x.name ?_)
      · rw [addCancelledCells_cells]
      · exact addCancelledCells_lt _ _
    · split
      · exact answerAll_leads _ (by simp)
      · rename_i hn
        refine startBatch_leads bound hx he (fun b => ?_) (by simpa using hr) (.inl rfl)
          (by simpa using hn)
        rw [hq]
        exact ⟨b, rfl⟩

theorem beginAny_leads {e : Nat} {bodies : List (Body V)} {bound : Option Duration}
    (hx : w.waiters[j]? = some x) (he : x.stage = .created)
    (hq : x.request = .invokeAny e bodies bound) :
    Leads (.turn (.waiter j)) w (.caller none) (w.beginAny j x e bodies bound) := by
  unfold beginAny
  dsimp only
  have hreport := report_leads (f := .turn (.waiter j)) (w := w)
    (.invokeAnyCalled (w.nameOf e) bodies.length bound)
  refine hreport.trans ?_
  split
  · exact finishWaiter_leads _ _
  · rename_i hn
    split
    · exact reject_leads _ _
    · rename_i hr
      split
      · exact finishWaiter_leads _ _
      · refine startBatch_leads bound hx he (fun b => ?_) (by simpa using hr) (.inr rfl)
          (by simpa using hn)
        rw [hq]
        exact ⟨b, rfl⟩

theorem waiterTurn_leads : Leads (.turn (.waiter j)) w (.caller none) (w.waiterTurn j) := by
  unfold waiterTurn
  split
  · rename_i hx
    exact .op (fun _ => .leave fun x hx' => by simp [hx] at hx') (fun _ => .waiter rfl) rfl
  · rename_i x hx
    split
    · rename_i hst
      unfold beginWaiter
      split
      · rename_i c bound hq
        exact checkWaiter_leads hx (.inl hst) (by rw [hq]; rfl) (by simp)
      · rename_i e bound hq
        dsimp only
        refine (report_leads (.awaitTerminationCalled (w.nameOf e) bound)).trans ?_
        exact checkWaiter_leads hx (.inl hst) (by rw [hq]; rfl) (by simp)
      · rename_i hq
        exact beginAll_leads hx hst hq
      · rename_i hq
        exact beginAny_leads hx hst hq
    · -- What the waiter waits for was right when it began to, and is kept.
      rename_i on deadline hst
      apply Leads.known
      intro hr
      have hseat := hr.sound.seated hx
      apply checkWaiter_leads hx (.inr hst) (hseat.suits hst)
      intro b hb
      subst hb
      exact hseat.batch_lt hst
    · rename_i hst
      refine .op (fun _ => .leave fun y hy => ?_) (fun _ => .waiter rfl) rfl
      obtain rfl := Option.some.inj (hx.symm.trans hy)
      exact hst

end Waiters

/-! ## Turns -/

theorem watcherTurn_leads {e : Nat} :
    Leads (.turn (.watcher e)) w (.caller none) (w.watcherTurn e) := by
  unfold watcherTurn
  split
  · rename_i hd
    exact .op (fun _ => .terminate hd) (fun _ => .watcher rfl) rfl
  · rename_i hd
    exact .op (fun _ => .linger (by simpa using hd)) (fun _ => .watcher rfl) rfl

/-- A turn is a sequence of operations. -/
theorem turn_leads : Leads (.caller none) w (.caller none) w.turn := by
  unfold turn
  split
  · exact .refl
  · rename_i r rest hready
    have htake : Leads (.caller none) w (.turn r) { w with ready := rest } :=
      .op (fun _ => .take hready) (fun _ => .turns) rfl
    cases r with
    | child i => exact childTurn_leads hready
    | waiter j => exact htake.trans waiterTurn_leads
    | watcher e => exact htake.trans watcherTurn_leads

theorem turns_leads (n : Nat) : Leads (.caller none) w (.caller none) (w.turns n) := by
  induction n generalizing w with
  | zero => exact .refl
  | succ n ih =>
    unfold turns
    split
    · exact .refl
    · exact turn_leads.trans ih

theorem quiesce_leads : Leads (.caller none) w (.caller none) w.quiesce := turns_leads _

/-! ## The passage of time -/

theorem moveTo_way {t : Duration} (ht : w.clock.elapsed ≤ t) :
    Way (.caller none) w (.caller none) (w.moveTo t) :=
  Way.refl.next (.clock ht) fun _ => .silent rfl

/-- The clock is moved and turns are taken. -/
theorem moveTo_quiesce_way {t : Duration} (hr : Reached (.caller none) w)
    (ht : w.clock.elapsed ≤ t) : Way (.caller none) w (.caller none) (w.moveTo t).quiesce :=
  (moveTo_way ht).trans (quiesce_leads ((moveTo_way ht).reached hr)).toWay

/-- A stop is on the way. -/
theorem nextStop?_bounds {target : Duration} {t : Duration}
    (h : (w.nextStop? target.nanos).bind Duration.ofNanos? = some t) :
    w.clock.elapsed ≤ t ∧ t ≤ target := by
  obtain ⟨n, hn, ht⟩ := Option.bind_eq_some_iff.mp h
  obtain rfl := Duration.ofNanos?_eq_some_iff.mp ht
  unfold nextStop? at hn
  split at hn
  · rename_i u hmin
    split at hn
    · rename_i hu
      obtain rfl := Option.some.inj hn
      have hmem := List.min?_mem hmin
      have hlt : w.now < t.nanos := of_decide_eq_true (List.mem_filter.mp hmem).2
      exact ⟨Nat.le_of_lt hlt, hu⟩
    · cases hn
  · cases hn

/-- Time passes, through the stops on the way, up to a reading. -/
theorem passTo_way {target : Duration} (n : Nat) (hr : Reached (.caller none) w)
    (ht : w.clock.elapsed ≤ target) :
    Way (.caller none) w (.caller none) (w.passTo target n) := by
  induction n generalizing w with
  | zero => exact moveTo_quiesce_way hr ht
  | succ n ih =>
    unfold passTo
    split
    · rename_i t hstop
      obtain ⟨hnow, hle⟩ := nextStop?_bounds hstop
      have hstep := moveTo_quiesce_way hr hnow
      refine hstep.trans (ih (hstep.reached hr) ?_)
      -- Turns leave the clock at the stop.
      rw [(quiesce_leads ((moveTo_way hnow).reached hr)).clock]
      exact hle
    · exact moveTo_quiesce_way hr ht

theorem goTo_way {target : Duration} (hr : Reached (.caller none) w)
    (ht : w.clock.elapsed ≤ target) : Way (.caller none) w (.caller none) (w.goTo target) := by
  unfold goTo
  split
  · exact moveTo_quiesce_way hr ht
  · exact passTo_way _ hr ht

theorem advance_way (d : Duration) (hr : Reached (.caller none) w) :
    Way (.caller none) w (.caller none) (w.advance d).1 := by
  have hquiet := quiesce_leads hr
  have hr' := hquiet.reached hr
  unfold advance
  dsimp only
  split
  · exact hquiet.toWay
  · rename_i target hadd
    have hle := Duration.le_of_add? hadd
    refine hquiet.toWay.trans ?_
    split
    · have hreport := report_leads (.clockAdvanced d target) hr'
      exact hreport.toWay.trans (goTo_way (hreport.reached hr') hle)
    · exact goTo_way hr' hle

theorem setElapsed_way (t : Duration) (hr : Reached (.caller none) w) :
    Way (.caller none) w (.caller none) (w.setElapsed t) := by
  have hquiet := quiesce_leads hr
  unfold setElapsed
  dsimp only
  split
  · rename_i hlt
    exact hquiet.toWay.trans (goTo_way (hquiet.reached hr) (Nat.le_of_lt hlt))
  · exact hquiet.toWay

/-! ## Scenarios -/

/-- A step of a scenario is a sequence of operations. -/
theorem take_way (s : ScenarioStep V) (hr : Reached (.caller none) w) :
    Way (.caller none) w (.caller none) (w.take s).1 := by
  cases s with
  | call c => exact (perform_leads c hr).toWay
  | advance d => exact advance_way d hr
  | setElapsed t => exact setElapsed_way t hr
  | settle => exact (quiesce_leads hr).toWay

/-- The state after some steps of a scenario. -/
def after (w : World V) (steps : List (ScenarioStep V)) : World V :=
  steps.foldl (fun w s => (w.take s).1) w

theorem after_way (steps : List (ScenarioStep V)) (hr : Reached (.caller none) w) :
    Way (.caller none) w (.caller none) (w.after steps) := by
  induction steps generalizing w with
  | nil => exact .refl
  | cons s steps ih => exact (take_way s hr).trans (ih ((take_way s hr).reached hr))

end World

section Scenarios

variable {V : Type} {w : World V}

/-- Every state between two steps of a scenario is reached. -/
theorem Reached.after (jumps : Bool) (steps : List (ScenarioStep V)) :
    Reached (.caller none) ((World.start jumps).after steps) :=
  (World.after_way steps (Reached.start jumps)).reached (Reached.start jumps)

/-- It is so by moves. -/
theorem Walked.after (h : Walked (.caller none) w) (steps : List (ScenarioStep V)) :
    Walked (.caller none) (w.after steps) :=
  h.moves ((World.after_way steps h.reached).moves h)

end Scenarios

end TimedTasks

import TimedTasks.Proofs.Shutdown
import TimedTasks.Proofs.Strides
/-!
Calls, made of operations. A call that a caller outside or a body makes in a state of a run is a
sequence of operations, after which the same caller goes on. Each of them is done at its place.
-/

namespace TimedTasks

variable {V : Type}

/-- Some operations, which in a run are each done at their place. -/
structure Way (f : Focus) (w : World V) (f' : Focus) (w' : World V) : Prop where
  ops : Ops f w f' w'
  moves : Walked f w → Moves f w f' w'
  strides : Strode f w → Strides f w f' w'

/-- Some operations while the clock stands still. -/
structure Stretch (f : Focus) (w : World V) (f' : Focus) (w' : World V) : Prop
    extends Way f w f' w' where
  clock : w'.clock = w.clock

/-- In a run, some operations lead from one state to another while the clock stands still. -/
def Leads (f : Focus) (w : World V) (f' : Focus) (w' : World V) : Prop :=
  Reached f w → Stretch f w f' w'

variable {f f' f'' : Focus} {w w' w'' : World V}

namespace Way

theorem refl : Way f w f w := ⟨.refl, fun _ => .refl, fun _ => .refl⟩

theorem trans (h : Way f w f' w') (h' : Way f' w' f'' w'') : Way f w f'' w'' :=
  ⟨h.ops.trans h'.ops, fun hw => (h.moves hw).trans (h'.moves (hw.moves (h.moves hw))),
    fun hs => (h.strides hs).trans (h'.strides (hs.strides (h.strides hs)))⟩

/-- One more operation, which heeds what is known of the run so far. -/
theorem next (h : Way f w f' w') (op : Op f' w' f'' w'') (hh : Walked f w → Plain f' w' f'' w'') :
    Way f w f'' w'' :=
  ⟨h.ops.trans op.ops, fun hw => (h.moves hw).trans (Move.moves ⟨op, (hh hw).toHeeds⟩),
    fun hs => (h.strides hs).trans (Stride.plain op (hh hs.walked)).strides⟩

theorem stride (s : Stride f w f' w') : Way f w f' w' :=
  ⟨s.moves.ops, fun _ => s.moves, fun _ => s.strides⟩

theorem reached (h : Way f w f' w') (hr : Reached f w) : Reached f' w' := hr.ops h.ops

end Way

namespace Stretch

theorem refl : Stretch f w f w := ⟨.refl, rfl⟩

theorem trans (h : Stretch f w f' w') (h' : Stretch f' w' f'' w'') : Stretch f w f'' w'' :=
  ⟨h.toWay.trans h'.toWay, h'.clock.trans h.clock⟩

theorem next (h : Stretch f w f' w') (op : Op f' w' f'' w'')
    (hh : Walked f w → Plain f' w' f'' w'') (hc : w''.clock = w'.clock) : Stretch f w f'' w'' :=
  ⟨h.toWay.next op hh, hc.trans h.clock⟩

theorem op (h : Op f w f' w') (hh : Walked f w → Plain f w f' w') (hc : w'.clock = w.clock) :
    Stretch f w f' w' := refl.next h hh hc

theorem reached (h : Stretch f w f' w') (hr : Reached f w) : Reached f' w' := h.toWay.reached hr

end Stretch

namespace Leads

theorem refl : Leads f w f w := fun _ => .refl

theorem trans (h : Leads f w f' w') (h' : Leads f' w' f'' w'') : Leads f w f'' w'' :=
  fun hr => (h hr).trans (h' ((h hr).reached hr))

theorem op (h : Reached f w → Op f w f' w') (hh : Walked f w → Plain f w f' w')
    (hc : w'.clock = w.clock) : Leads f w f' w' := fun hr => .op (h hr) hh hc

theorem stride (s : Stride f w f' w') (hc : w'.clock = w.clock) : Leads f w f' w' :=
  fun _ => ⟨.stride s, hc⟩

theorem reached (h : Leads f w f' w') (hr : Reached f w) : Reached f' w' := (h hr).reached hr

theorem ops (h : Leads f w f' w') (hr : Reached f w) : Ops f w f' w' := (h hr).toWay.ops

/-- What is known of the first state may be used. -/
theorem known (h : Reached f w → Leads f w f' w') : Leads f w f' w' := fun hr => h hr hr

end Leads

namespace World

/-! ## Names and texts -/

theorem report_leads (n : Notice) : Leads f w f (w.report n) :=
  .op (fun hr => .quiet w.futureNames w.waiterNames w.threadNames w.log (w.notices ++ [n])
    hr.sound.futures) (fun _ => .same rfl rfl) rfl

theorem note_leads (who : String) (event : Event V) : Leads f w f (w.note who event) :=
  .op (fun hr => .quiet w.futureNames w.waiterNames w.threadNames (w.log ++ [⟨w.now, who, event⟩])
    w.notices hr.sound.futures) (fun _ => .same rfl rfl) rfl

theorem nameFuture_leads (name : String) {h : Handle} (hc : h.cell < w.cells.length) :
    Leads f w f (w.nameFuture name h) := by
  refine .op (fun hr => ?_) (fun _ => .same rfl rfl) rfl
  refine .quiet (w.futureNames.put name h) w.waiterNames w.threadNames w.log w.notices ?_
  intro p hp
  rcases Names.mem_put hp with hp | rfl
  · exact hr.sound.futures p hp
  · exact hc

/-! ## Tasks that are handed in -/

theorem enrol_leads (e : Nat) (name : String) {work : Work V} (mark : Option Mark) {b : Option Nat}
    (hb : work.batch? = none) :
    Leads (.caller b) w (.caller b) (w.enrol e name work mark).1 := by
  unfold enrol
  split
  · rename_i hr
    exact .op (fun _ => .enrol name mark hr hb) (fun _ => .silent rfl) rfl
  · exact .op (fun _ => .refuse e) (fun _ => .same rfl rfl) rfl

theorem enrol_ok {e : Nat} {name : String} {work : Work V} {mark : Option Mark} {c : Nat}
    (h : (w.enrol e name work mark).2 = .ok c) :
    c < (w.enrol e name work mark).1.cells.length := by
  unfold enrol at h ⊢
  split at h
  · rename_i hr
    rw [if_pos hr]
    obtain rfl := Except.ok.inj h
    show w.cells.length < (w.cells ++ [_]).length
    rw [List.length_append]
    exact Nat.lt_succ_self _
  · cases h

theorem accepted_leads (name : String) (kind : HandleKind) {r : World V × Except TaskError Nat}
    (h : Leads f w f r.1) (hc : ∀ c, r.2 = .ok c → c < r.1.cells.length) :
    Leads f w f (accepted name kind r).1 := by
  obtain ⟨w', c | e⟩ := r
  · exact h
  · exact h.trans (nameFuture_leads name (hc _ rfl))

/-- What holds of handing a task in, whether or not that is reached. -/
theorem schedule_leads (e : Nat) (name : String) (delay : Duration) (body : Body V)
    {b : Option Nat} : Leads (.caller b) w (.caller b) (w.schedule e name delay body).1 ∧
      ∀ c, (w.schedule e name delay body).2 = .ok c →
        c < (w.schedule e name delay body).1.cells.length := by
  unfold schedule
  split
  · exact ⟨.refl, by simp⟩
  · exact ⟨enrol_leads e name _ rfl, fun _ => enrol_ok⟩

theorem scheduleRepeating_leads (e : Nat) (name : String) (pace : Pace) (initial : Duration)
    (runs : List (Body V)) {b : Option Nat} :
    Leads (.caller b) w (.caller b) (w.scheduleRepeating e name pace initial runs).1 ∧
      ∀ c, (w.scheduleRepeating e name pace initial runs).2 = .ok c →
        c < (w.scheduleRepeating e name pace initial runs).1.cells.length := by
  have h := report_leads (f := .caller b) (w := w) (.repeatingCalled (w.nameOf e) initial pace)
  unfold scheduleRepeating
  dsimp only
  split
  · exact ⟨h, by simp⟩
  · split
    · exact ⟨h, by simp⟩
    · exact ⟨h.trans (enrol_leads e name _ rfl), fun _ => enrol_ok⟩

/-! ## Cancellation and shutdown -/

theorem cancel_leads (c : Nat) (interrupt : Bool) : Leads f w f (w.cancel c interrupt).1 := by
  cases hg : w.cancellable c interrupt with
  | true =>
    refine .op (fun _ => .cancel hg) (fun _ => .stay (fun k hk => ?_) fun k => ?_)
      (w.cancel_frame c interrupt).1
    · rw [cancel_history_of_granted hg] at hk
      simp at hk
    · exact markOf?_modify (cancel_cells ..) fun cell => cell.cancelBy_mark _
  | false =>
    rw [cancel_refused hg]
    exact .refl

theorem cancelAll_leads (cs : List Nat) : Leads f w f (w.cancelAll cs).1 := by
  induction cs generalizing w with
  | nil => exact .refl
  | cons c cs ih => exact (cancel_leads c true).trans ih

theorem seeTo_leads (s : Settings) (i : Nat) : Leads f w f (w.seeTo s i) := by
  unfold seeTo
  split
  · exact .refl
  · rename_i child _
    split
    · refine (cancel_leads child.cell false).trans ?_
      dsimp only
      split
      · exact report_leads _
      · exact .refl
    · exact .refl

theorem applyPolicies_leads (s : Settings) (is : List Nat) :
    Leads f w f (w.applyPolicies s is) := by
  induction is generalizing w with
  | nil => exact .refl
  | cons i is ih =>
    rw [applyPolicies_cons]
    exact (seeTo_leads s i).trans ih

/-- Those who were signalled are not signalled again. -/
theorem signalAll_eq_self {cs : List Nat} (hcs : ∀ c ∈ cs, w.isSignalled c = true) :
    w.signalAll cs = w := by
  induction cs with
  | nil => rfl
  | cons c cs ih =>
    rw [signalAll, signal, if_pos (hcs c List.mem_cons_self)]
    exact ih fun c hc => hcs c (List.mem_cons_of_mem _ hc)

/-- After all registered children were cancelled nobody is left to be signalled. -/
theorem signalAll_cancelAll (hr : Reached f w) (e : Nat) :
    (w.cancelAll (w.registeredCells e)).1.signalAll (w.registeredCells e) =
      (w.cancelAll (w.registeredCells e)).1 := by
  have hr' := (cancelAll_leads (w.registeredCells e)).reached hr
  apply signalAll_eq_self
  intro c hc
  obtain ⟨i, child, hi, -, hn, rfl⟩ := mem_registeredCells hr hc
  have hs := cancelAll_settles (fun c hc => by
    obtain ⟨i, child, hi, -, -, rfl⟩ := mem_registeredCells hr hc
    exact hr.owned.cell_lt hi) _ hc
  have hi' : (w.cancelAll (w.registeredCells e)).1.children[i]? = some child := by
    rw [cancelAll_children, hi]
  have hcell := List.getElem?_eq_getElem (hr'.owned.cell_lt hi')
  rw [isSettled_eq, hcell] at hs
  rw [isSignalled, hcell]
  exact (hr'.tended.tends hi' hcell).signalled hn hs

theorem beginDrain_leads {e : Nat} {b : Option Nat} (hp : w.Purged e) :
    Leads (.shutting b e) w (.caller b) (w.beginDrain e) := by
  apply Leads.known
  intro hr
  have hx := List.getElem?_eq_getElem (hr.steered.leaving rfl)
  rw [beginDrain_eq hx]
  split
  · rename_i h0
    refine .op (fun _ => .close hx h0) (fun _ => .departs hp fun c h => ?_) rfl
    have h : w.history ++ [(w.now, Happening.terminated e)] = _ := h
    simp at h
  · rename_i h0
    refine .op (fun _ => .watch hx h0) (fun _ => .departs hp fun c h => ?_) rfl
    have h : w.history = _ := h
    simp at h

theorem ask_leads {e : Nat} (he : e < w.executors.length) (hr : w.isRunning e = false)
    {b : Option Nat} : Leads (.caller b) w (.caller b) (w.record (.asked e)) := by
  refine .op (fun _ => .ask he hr) (fun _ => .call fun c h => ?_) rfl
  have h : w.history ++ [(w.now, Happening.asked e)] = _ := h
  simp at h

/-- The state in which the shutdown of an executor looks at its tasks. -/
def shuttingDown (w : World V) (e : Nat) : World V :=
  ((((w.report (.shutdownCalled (w.nameOf e))).record (.asked e)).modifyExecutor e fun x =>
    { x with state := .draining }).record (.draining e)).report .shuttingDown

theorem shuttingDown_executor {e : Nat} {x : Executor} (hx : w.executors[e]? = some x) :
    (w.shuttingDown e).executors[e]? = some { x with state := .draining } :=
  (List.getElem?_modify_eq ..).trans (congrArg _ hx)

theorem shutdown_of_running {e : Nat} {x : Executor} (hx : w.executors[e]? = some x)
    (hrun : w.isRunning e = true) :
    w.shutdown e = ((w.shuttingDown e).applyPolicies x.settings x.registry).beginDrain e := by
  have hx' : (w.report (.shutdownCalled (w.nameOf e))).executors[e]? = some x := hx
  have hrun' : (w.report (.shutdownCalled (w.nameOf e))).isRunning e = true := hrun
  unfold shutdown
  dsimp only
  rw [hx', beginShutdown_of_running hrun']
  rfl

/-- A shutdown comes to the point at which it has seen to the tasks of its executor. -/
theorem policies_leads {e : Nat} {x : Executor} (hx : w.executors[e]? = some x)
    (hrun : w.isRunning e = true) {b : Option Nat} :
    Leads (.caller b) w (.shutting b e)
      ((w.shuttingDown e).applyPolicies x.settings x.registry) ∧
    (Reached (.caller b) w →
      ((w.shuttingDown e).applyPolicies x.settings x.registry).Purged e) := by
  have hrun' : (w.report (.shutdownCalled (w.nameOf e))).isRunning e = true := hrun
  have hdrain : Leads (.caller b) w (.shutting b e) (w.shuttingDown e) :=
    (report_leads _).trans
      ((Leads.op (fun _ => .drain hrun') (fun _ => .enters) rfl).trans (report_leads .shuttingDown))
  refine ⟨hdrain.trans (applyPolicies_leads _ _), fun hr => ?_⟩
  have hpurged := applyPolicies_purged (hdrain.reached hr) (shuttingDown_executor hx)
  exact hpurged

theorem shutdown_leads {e : Nat} (he : e < w.executors.length) {b : Option Nat} :
    Leads (.caller b) w (.caller b) (w.shutdown e) := by
  have hx := List.getElem?_eq_getElem he
  cases hrun : w.isRunning e with
  | true =>
    rw [shutdown_of_running hx hrun]
    obtain ⟨hleads, hpurged⟩ := policies_leads hx hrun (b := b)
    exact .known fun hr => hleads.trans (beginDrain_leads (hpurged hr))
  | false =>
    have hx' : (w.report (.shutdownCalled (w.nameOf e))).executors[e]? = some _ := hx
    have hrun' : (w.report (.shutdownCalled (w.nameOf e))).isRunning e = false := hrun
    unfold shutdown
    dsimp only
    rw [hx', beginShutdown_of_not_running hrun']
    exact (report_leads _).trans (ask_leads (w := w.report _) he hrun)

/-- The state in which a halt of an executor looks at its tasks. -/
def halting (w : World V) (e : Nat) : World V :=
  ((w.report (.shutdownNowCalled (w.nameOf e))).beginShutdown e).1

/-- The state in which it has cancelled them. -/
def cleared (w : World V) (e : Nat) : World V :=
  ((w.halting e).cancelAll ((w.halting e).registeredCells e)).1.report
    (.shutDownNow ((w.halting e).cancelAll ((w.halting e).registeredCells e)).2)

theorem halting_leads {e : Nat} (he : e < w.executors.length) {b : Option Nat} :
    Leads (.caller b) w (if w.isRunning e then .shutting b e else .caller b) (w.halting e) := by
  have h := report_leads (f := .caller b) (w := w) (.shutdownNowCalled (w.nameOf e))
  unfold halting
  cases hrun : w.isRunning e with
  | true =>
    have hrun' : (w.report (.shutdownNowCalled (w.nameOf e))).isRunning e = true := hrun
    rw [beginShutdown_of_running hrun']
    exact h.trans (Leads.op (fun _ => .drain hrun') (fun _ => .enters) rfl)
  | false =>
    have hrun' : (w.report (.shutdownNowCalled (w.nameOf e))).isRunning e = false := hrun
    rw [beginShutdown_of_not_running hrun']
    exact h.trans (ask_leads (w := w.report _) he hrun)

theorem cleared_leads {e : Nat} : Leads f (w.halting e) f (w.cleared e) :=
  (cancelAll_leads _).trans (report_leads _)

theorem beginShutdown_snd (w : World V) (e : Nat) : (w.beginShutdown e).2 = w.isRunning e := by
  cases hrun : w.isRunning e with
  | true => rw [beginShutdown_of_running hrun]
  | false => rw [beginShutdown_of_not_running hrun]

/-- A halt cancels the tasks, and lets the executor drain if it was running. -/
theorem shutdownNow_eq {e : Nat} (he : e < w.executors.length) {b : Option Nat}
    (hr : Reached (.caller b) w) :
    w.shutdownNow e = if w.isRunning e then (w.cleared e).beginDrain e else w.cleared e := by
  -- To signal the tasks that were just cancelled does nothing.
  have hsignal := signalAll_cancelAll ((halting_leads he).reached hr) e
  have hmoved : ((w.report (.shutdownNowCalled (w.nameOf e))).beginShutdown e).2 =
      w.isRunning e := beginShutdown_snd _ e
  unfold cleared
  rw [← hsignal, ← hmoved]
  rfl

/-- After that, one that was running begins to drain. -/
theorem afterHalt_leads {e : Nat} (he : e < w.executors.length) {b : Option Nat}
    (hr : Reached (.caller b) w) :
    Leads (if w.isRunning e then .shutting b e else .caller b) (w.cleared e) (.caller b)
      (w.shutdownNow e) := by
  have hpurged : (w.cleared e).Purged e := cancelAll_purged ((halting_leads he).reached hr)
  rw [shutdownNow_eq he hr]
  cases w.isRunning e with
  | true => exact beginDrain_leads hpurged
  | false => exact .refl

theorem shutdownNow_leads {e : Nat} (he : e < w.executors.length) {b : Option Nat} :
    Leads (.caller b) w (.caller b) (w.shutdownNow e) :=
  .known fun hr => (halting_leads he).trans (cleared_leads.trans (afterHalt_leads he hr))

/-! ## Calls -/

/-- What is found by name is there. -/
theorem executor_lt (hr : Reached f w) {name : String} {e : Nat} (he : w.executor name = .ok e) :
    e < w.executors.length := by
  unfold executor at he
  split at he
  · rename_i e' hn
    obtain rfl := Except.ok.inj he
    exact hr.owned.named _ (Names.mem_of_get? hn)
  · cases he

theorem future_lt (hr : Reached f w) {name : String} {h : Handle} (hh : w.future name = .ok h) :
    h.cell < w.cells.length := by
  unfold future at hh
  split at hh
  · rename_i h' hn
    obtain rfl := Except.ok.inj hh
    exact hr.sound.futures _ (Names.mem_of_get? hn)
  · cases hh

theorem onExecutor_leads {name : String} {g : Nat → World V × Answer V}
    (h : ∀ e < w.executors.length, Leads f w f (g e).1) :
    Leads f w f (w.onExecutor name g).1 := by
  unfold onExecutor
  split
  · rename_i e he
    exact .known fun hr => h e (executor_lt hr he)
  · exact .refl

theorem onFuture_leads {name : String} {g : Handle → World V × Answer V}
    (h : ∀ h : Handle, h.cell < w.cells.length → Leads f w f (g h).1) :
    Leads f w f (w.onFuture name g).1 := by
  unfold onFuture
  split
  · rename_i h' hh
    exact .known fun hr => h h' (future_lt hr hh)
  · exact .refl

theorem answer_leads {α : Type} (g : α → Answer V) (r : Except Panic α) :
    Leads f w f (w.answer g r).1 := by
  cases r <;> exact .refl

theorem quiet_leads (waiters threads : Names Nat) :
    Leads f w f { w with waiterNames := waiters, threadNames := threads } :=
  .op (fun hr => .quiet w.futureNames waiters threads w.log w.notices hr.sound.futures)
    (fun _ => .same rfl rfl) rfl

theorem create_leads (name : String) (document override : Option String)
    (keepPeriodic keepDelayed : Option Bool) {b : Option Nat} :
    Leads (.caller b) w (.caller b)
      (w.create name document override keepPeriodic keepDelayed).1 := by
  unfold create
  split
  · exact .refl
  · rename_i s _
    exact .op (fun _ => .create name s) (fun _ => .same rfl rfl) rfl

theorem abort_leads (name : String) {b : Option Nat} :
    Leads (.caller b) w (.caller b) (w.abort name).1 := by
  unfold abort
  split
  · exact .refl
  · rename_i j _
    exact (Leads.op (fun _ => .abort j) (fun _ => .same rfl rfl) rfl).trans (quiet_leads _ _)

theorem blockingGet_leads (thread : String) (c : Nat) : Leads f w f (w.blockingGet thread c).1 := by
  unfold blockingGet
  split
  · exact .refl
  · exact quiet_leads _ _

theorem threadJoin_leads (thread : String) : Leads f w f (w.threadJoin thread).1 := by
  unfold threadJoin
  split
  · exact .refl
  · split
    · exact quiet_leads _ _
    · exact .refl

/-- A call is a sequence of operations. -/
theorem perform_leads (c : Call V) {b : Option Nat} :
    Leads (.caller b) w (.caller b) (w.perform c).1 := by
  cases c with
  | create executor document name keepPeriodic keepDelayed => exact create_leads _ _ _ _ _
  | execute executor task body =>
    apply onExecutor_leads
    intro e _
    have h : Leads (.caller b) w (.caller b) (w.submit e task .unwanted body).1 :=
      enrol_leads e task none rfl
    split
    · rename_i hs; rw [hs] at h; exact h
    · rename_i hs; rw [hs] at h; exact h
  | submit executor future instead body =>
    exact onExecutor_leads fun e _ => accepted_leads future .plain (enrol_leads e future _ rfl)
      fun _ => enrol_ok
  | schedule executor future delay body =>
    apply onExecutor_leads
    intro e _
    obtain ⟨h, hc⟩ := schedule_leads (w := w) e future delay body (b := b)
    exact accepted_leads future .delayed h hc
  | repeating executor future pace initial runs =>
    apply onExecutor_leads
    intro e _
    obtain ⟨h, hc⟩ := scheduleRepeating_leads (w := w) e future pace initial runs (b := b)
    exact accepted_leads future .periodic h hc
  | cancel future interrupt => exact onFuture_leads fun h _ => cancel_leads h.cell interrupt
  | share future name => exact onFuture_leads fun h hc => nameFuture_leads name hc
  | shareTask future name => exact onFuture_leads fun h hc => nameFuture_leads name hc
  | forget future =>
    refine onFuture_leads fun h _ => .op (fun hr => ?_) (fun _ => .same rfl rfl) rfl
    exact .quiet (w.futureNames.erase future) w.waiterNames w.threadNames w.log w.notices
      fun p hp => hr.sound.futures p (List.mem_filter.mp hp).1
  | inspect future => exact onFuture_leads fun _ _ => .refl
  | delay future unit => cases unit <;> exact answer_leads _ _
  | dueTime future => exact answer_leads _ _
  | compare a c => exact answer_leads _ _
  | compareFixed future amount unit due => exact answer_leads _ _
  | sort futures => exact answer_leads _ _
  | get waiter future bound =>
    exact onFuture_leads fun h hc => .op (fun _ => .await waiter hc) (fun _ => .same rfl rfl) rfl
  | awaitTermination waiter executor bound =>
    exact onExecutor_leads fun e _ =>
      .op (fun _ => .await waiter trivial) (fun _ => .same rfl rfl) rfl
  | invokeAll waiter executor bodies bound =>
    exact onExecutor_leads fun e _ =>
      .op (fun _ => .await waiter trivial) (fun _ => .same rfl rfl) rfl
  | invokeAny waiter executor bodies bound =>
    exact onExecutor_leads fun e _ =>
      .op (fun _ => .await waiter trivial) (fun _ => .same rfl rfl) rfl
  | abort waiter => exact abort_leads waiter
  | blockingGet thread future => exact onFuture_leads fun h _ => blockingGet_leads thread h.cell
  | threadJoin thread => exact threadJoin_leads thread
  | shutdown executor => exact onExecutor_leads fun e he => shutdown_leads he
  | shutdownNow executor => exact onExecutor_leads fun e he => shutdownNow_leads he
  | lifecycle executor => exact onExecutor_leads fun _ _ => .refl
  | describe executor => exact onExecutor_leads fun _ _ => .refl
  | stats executor => exact onExecutor_leads fun _ _ => .refl

end World

end TimedTasks
